import I3Config.CString
import I3Config.ValueStack
import I3Config.Tables
import I3Config.Lexer
import I3Config.Report
import I3Config.Driver
import I3Config.Trail
import I3Config.Progress
import I3Config.CaptureWindow
import I3Config.Captures
import I3Config.Recognizers
import I3Config.Variables
import I3Config.Blanks
import I3Config.Indentation
import I3Config.Diagnostics
import I3Config.Version
import I3Config.Bindings
import I3Config.StackRuns
import I3Config.Substitution
import I3Config.Allocation
import I3Config.Assignments
import I3Config.Composition

import I3Config.Report

namespace I3Config.Driver

open CString ValueStack Tables Lexer Report

/-- The static variables of the parser that outlive a call of `parse_config`. -/
structure Globals (σ κ : Type) where
  state : σ
  statelist : List σ
  stack : κ

/-- A point of the main loop: the static variables and the locals `input`,
`walk` (an offset) and `linecnt`. -/
structure Config (σ κ : Type) extends Globals σ κ where
  input : List Char
  walk : Nat
  linecnt : Nat

/-- What a run shows outside: handler calls with the values they can read,
and error records with the cursor and the line number logged with them. -/
inductive Event
  | call (callIdentifier : UInt16) (view : View)
  | error (walk linecnt : Nat) (record : ErrorRecord)

inductive Outcome (σ κ : Type)
  | next (c : Config σ κ) (events : List Event)
  | abort (reason : Stop) (events : List Event)

def Outcome.events {σ κ : Type} : Outcome σ κ → List Event
  | .next _ events => events
  | .abort _ events => events

inductive Final (σ κ : Type)
  | done (c : Config σ κ)
  | abort (reason : Stop)
  | running (c : Config σ κ)

structure Run (σ κ : Type) where
  events : List Event
  final : Final σ κ

variable {σ κ : Type}

def tokenStart (c : Config σ κ) : Nat := c.walk + skipWhitespace (c.input.drop c.walk)

variable [DecidableEq σ] (g : Grammar σ) (S : CaptureStore κ)

/-- `next_state (token)`. -/
def nextState (t : Token σ) (G : Globals σ κ) : Globals σ κ × List Event :=
  let next := target g t (S.view G.stack)
  let stack := if t.nextState = g.CALL then S.clear G.stack else G.stack
  (⟨next, enterState G.statelist next, if next = g.INITIAL then S.clear stack else stack⟩,
    if t.nextState = g.CALL then [.call t.callIdentifier (S.view G.stack)] else [])

/-- `push_string` or `push_long` of the value of an identified token. -/
def capture (t : Token σ) (value : Option StackVal) (k : κ) : Except Stop κ :=
  match t.identifier, value with
  | some id, some (.str v) => S.pushString id v k
  | some id, some (.long n) => S.pushLong id n k
  | _, _ => .ok k

def untilNewline : List Char → Nat
  | [] => 1
  | c :: cs => if c = '\n' then 0 else untilNewline cs + 1

/-- `while ((walk - input) <= len && *walk != '\n') walk++`. -/
def skipLine (s : List Char) (walk : Nat) : Nat := walk + untilNewline (s.drop walk)

/-- A descriptor matched: push its value, take the transition, and count a
line for `line` and `end`. -/
def advance (c : Config σ κ) (t : Token σ) (walk : Nat) (value : Option StackVal)
    (newline : Bool) : Outcome σ κ :=
  match capture S t value c.stack with
  | .error r => .abort r []
  | .ok k =>
      let r := nextState g S t { c.toGlobals with stack := k }
      if TrailFull c.statelist r.1.state then .abort .trailOverflow r.2
      else .next { c with toGlobals := r.1, walk, linecnt := if newline then c.linecnt + 1 else c.linecnt } r.2

/-- No descriptor matched: report, skip the rest of the line, clear the stack
and follow the nearest `error` descriptor; `assert (error_token_found)` fails
when the trail has none. -/
def recover (c : Config σ κ) (walk : Nat) : Outcome σ κ :=
  let report := Event.error walk c.linecnt (errorRecord c.input (g.tokens c.state) walk)
  match findErrorToken g c.statelist with
  | none => .abort .noErrorToken [report]
  | some t =>
      let r := nextState g S t { c.toGlobals with stack := S.clear c.stack }
      if TrailFull c.statelist r.1.state then .abort .trailOverflow (report :: r.2)
      else .next { c with toGlobals := r.1, walk := skipLine c.input walk } (report :: r.2)

theorem advance_next {c c' : Config σ κ} {t : Token σ} {walk : Nat} {value : Option StackVal} {nl : Bool}
    {ev : List Event} (h : advance g S c t walk value nl = .next c' ev) :
    ∃ k, capture S t value c.stack = .ok k ∧
      ¬TrailFull c.statelist (nextState g S t { c.toGlobals with stack := k }).1.state ∧
      c' = { c with
        toGlobals := (nextState g S t { c.toGlobals with stack := k }).1, walk := walk,
        linecnt := if nl then c.linecnt + 1 else c.linecnt } ∧
      ev = (nextState g S t { c.toGlobals with stack := k }).2 := by
  unfold advance at h
  cases hc : capture S t value c.stack with
  | error r => rw [hc] at h; cases h
  | ok k =>
      rw [hc] at h
      by_cases hf : TrailFull c.statelist (nextState g S t { c.toGlobals with stack := k }).1.state
      · simp only [if_pos hf] at h; cases h
      · simp only [if_neg hf, Outcome.next.injEq] at h
        exact ⟨k, rfl, hf, h.1.symm, h.2.symm⟩

theorem recover_next {c c' : Config σ κ} {walk : Nat} {ev : List Event} (h : recover g S c walk = .next c' ev) :
    ∃ t, findErrorToken g c.statelist = some t ∧
      ¬TrailFull c.statelist (nextState g S t { c.toGlobals with stack := S.clear c.stack }).1.state ∧
      c' = { c with
        toGlobals := (nextState g S t { c.toGlobals with stack := S.clear c.stack }).1,
        walk := skipLine c.input walk } ∧
      ev = .error walk c.linecnt (errorRecord c.input (g.tokens c.state) walk) ::
        (nextState g S t { c.toGlobals with stack := S.clear c.stack }).2 := by
  unfold recover at h
  cases hf : findErrorToken g c.statelist with
  | none => rw [hf] at h; cases h
  | some t =>
      rw [hf] at h
      by_cases ho : TrailFull c.statelist (nextState g S t { c.toGlobals with stack := S.clear c.stack }).1.state
      · simp only [if_pos ho] at h; cases h
      · simp only [if_neg ho, Outcome.next.injEq] at h
        exact ⟨t, rfl, ho, h.1.symm, h.2.symm⟩

theorem advance_events (c : Config σ κ) (t : Token σ) (walk : Nat) (value : Option StackVal) (nl : Bool) :
    (advance g S c t walk value nl).events = [] ∨
      ∃ k, (advance g S c t walk value nl).events = (nextState g S t { c.toGlobals with stack := k }).2 := by
  unfold advance
  cases capture S t value c.stack with
  | error r => exact .inl rfl
  | ok k => exact .inr ⟨k, by dsimp only; split_ifs <;> rfl⟩

theorem recover_events (c : Config σ κ) (walk : Nat) :
    ∃ rest, (recover g S c walk).events = .error walk c.linecnt (errorRecord c.input (g.tokens c.state) walk) :: rest ∧
      (rest = [] ∨ ∃ t, rest = (nextState g S t { c.toGlobals with stack := S.clear c.stack }).2) := by
  unfold recover
  cases findErrorToken g c.statelist with
  | none => exact ⟨[], rfl, .inl rfl⟩
  | some t => exact ⟨_, by dsimp only; split_ifs <;> rfl, .inr ⟨t, rfl⟩⟩

/-- One iteration of the main loop of `parse_config`. -/
def step (c : Config σ κ) : Outcome σ κ :=
  match matchTokens c.input (g.tokens c.state) (tokenStart c) with
  | .matched t walk value newline => advance g S c t walk value newline
  | .unmatched walk => recover g S c walk

/-- The main loop `while ((walk - input) <= len)` for at most `fuel` iterations. -/
def run : Nat → Config σ κ → Run σ κ
  | 0, c => ⟨[], if c.walk ≤ c.input.length then .running c else .done c⟩
  | fuel + 1, c =>
      if c.walk ≤ c.input.length then
        match step g S c with
        | .next c' events => ⟨events ++ (run fuel c').events, (run fuel c').final⟩
        | .abort r events => ⟨events, .abort r⟩
      else ⟨[], .done c⟩

/-- `parse_config` on entry: `state = INITIAL; statelist_idx = 1;`, with the
stack as the previous parse left it. -/
def begin (G : Globals σ κ) (input : List Char) : Config σ κ :=
  ⟨⟨g.INITIAL, G.statelist.take 1, G.stack⟩, input, 0, 1⟩

def initGlobals : Globals σ κ := ⟨g.INITIAL, [g.INITIAL], S.empty⟩

def Moves (c c' : Config σ κ) : Prop :=
  c.walk ≤ c.input.length ∧ ∃ events, step g S c = .next c' events

/-- The points of the main loop that a process reaches, over any sequence of
calls of `parse_config`; a call starts once the previous one has returned. -/
inductive Reachable : Config σ κ → Prop
  | start (input : List Char) : Reachable (begin g (initGlobals g S) input)
  | move {c c' : Config σ κ} : Reachable c → Moves g S c c' → Reachable c'
  | restart {c : Config σ κ} (input : List Char) :
      Reachable c → c.input.length < c.walk → Reachable (begin g c.toGlobals input)

/-- The grammar of the `workspace` scenario: `INITIAL` (0) takes
`'workspace` to 1, where `number{num}` calls handler 0, which returns to
`INITIAL`; both states recover to `INITIAL`; 2 is `__CALL`. -/
def workspaceGrammar : Grammar (Fin 3) where
  INITIAL := 0
  CALL := 2
  tokens st :=
    if st = 0 then [⟨"'workspace", none, 1, 0⟩, ⟨"end", none, 0, 0⟩, ⟨"error", none, 0, 0⟩]
    else if st = 1 then [⟨"number", some "num", 2, 0⟩, ⟨"error", none, 0, 0⟩]
    else []
  call _ _ := 0
  names_nul_free := by decide

example : (run workspaceGrammar stackStore 8
    (begin workspaceGrammar (initGlobals workspaceGrammar stackStore) "workspace 5\n".toList)).events.length
      = 1 := by decide

def readsOf (x : String) : List Event → List (Option StackVal)
  | [] => []
  | .call _ view :: es => view x :: readsOf x es
  | .error .. :: es => readsOf x es

/-- `INITIAL` takes a word under `x` to state 1, where `'!` calls the handler
and `end` stays: a parse that stops in state 1 leaves `x` on the stack. -/
def pendingGrammar : Grammar (Fin 3) where
  INITIAL := 0
  CALL := 2
  tokens st :=
    if st = 0 then [⟨"word", some "x", 1, 0⟩, ⟨"end", none, 0, 0⟩, ⟨"error", none, 0, 0⟩]
    else if st = 1 then [⟨"'!", none, 2, 0⟩, ⟨"end", none, 1, 0⟩, ⟨"error", none, 0, 0⟩]
    else []
  call _ _ := 0
  names_nul_free := by decide

/-- After a parse of `p`, which ends in state 1, the stack still holds `x`, and
the handler of a later parse of `q !` reads `p,q` where a first parse reads
`q`. -/
theorem stack_survives_parse :
    ∃ c, (run pendingGrammar stackStore 4
        (begin pendingGrammar (initGlobals pendingGrammar stackStore) "p".toList)).final = .done c ∧
      lookup c.stack "x" = some (.str "p".toList) ∧
      readsOf "x" (run pendingGrammar stackStore 8 (begin pendingGrammar c.toGlobals "q !".toList)).events =
        [some (.str "p,q".toList)] ∧
      readsOf "x" (run pendingGrammar stackStore 8
        (begin pendingGrammar (initGlobals pendingGrammar stackStore) "q !".toList)).events =
        [some (.str "q".toList)] :=
  ⟨_, rfl, by decide, by decide, by decide⟩

end I3Config.Driver

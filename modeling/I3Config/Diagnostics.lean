import I3Config.Progress

namespace I3Config.Diagnostics

open CString ValueStack Tables Lexer Report Driver Progress

variable {σ κ : Type} [DecidableEq σ] {g : Grammar σ} {S : CaptureStore κ}

def errorLines : List Event → List (Nat × Nat)
  | [] => []
  | .error w l _ :: es => (w, l) :: errorLines es
  | .call .. :: es => errorLines es

def errorPositions : List Event → List (List Char)
  | [] => []
  | .error _ _ r :: es => r.errorposition :: errorPositions es
  | .call .. :: es => errorPositions es

theorem not_error_mem_nextState (t : Token σ) (G : Globals σ κ) {w l : Nat} {r : ErrorRecord} :
    Event.error w l r ∉ (nextState g S t G).2 := by
  unfold nextState; split_ifs <;> simp

theorem step_lines {c c' : Config σ κ} {evs : List Event} (hc : c.walk ≤ c.input.length)
    (h : step g S c = .next c' evs) :
    c'.input = c.input ∧ c.walk ≤ c'.walk ∧ (c'.linecnt = c.linecnt ∨
      (c'.linecnt = c.linecnt + 1 ∧ c.walk < c'.walk ∧ endsLine (cAt c.input (c'.walk - 1)) = true)) := by
  have hts := tokenStart_bounds hc
  unfold step at h
  split at h
  · rename_i t w v nl hm
    obtain ⟨h1, h2⟩ := matchTokens_matched_le hm
    obtain ⟨k, -, -, rfl, -⟩ := advance_next g S h
    refine ⟨rfl, by simp only; omega, ?_⟩
    cases nl
    · exact .inl rfl
    · exact .inr ⟨rfl, by simp only; have := (h2 rfl).1; omega, (h2 rfl).2⟩
  · rename_i w hm
    have hw := (matchTokens_unmatched hts.2 hm).1
    obtain ⟨t, -, -, rfl, -⟩ := recover_next g S h
    refine ⟨rfl, ?_, .inl rfl⟩
    simp only [skipLine]
    omega

theorem step_error_inv {c : Config σ κ} {w l : Nat} {r : ErrorRecord}
    (he : Event.error w l r ∈ (step g S c).events) :
    matchTokens c.input (g.tokens c.state) (tokenStart c) = .unmatched w ∧ l = c.linecnt ∧
      r = errorRecord c.input (g.tokens c.state) w := by
  unfold step at he
  split at he
  · rcases advance_events g S c _ _ _ _ with h | ⟨k, h⟩ <;> rw [h] at he
    · simp at he
    · exact absurd he (not_error_mem_nextState _ _)
  · rename_i w' hm
    obtain ⟨rest, h, hr⟩ := recover_events g S c w'
    rw [h] at he
    rcases List.mem_cons.1 he with he | he
    · simp only [Event.error.injEq] at he
      obtain ⟨rfl, rfl, rfl⟩ := he
      exact ⟨hm, rfl, rfl⟩
    · rcases hr with rfl | ⟨t, rfl⟩
      · simp at he
      · exact absurd he (not_error_mem_nextState _ _)

theorem run_error_record : ∀ (n : Nat) (c : Config σ κ) {w l : Nat} {r : ErrorRecord},
    Event.error w l r ∈ (run g S n c).events → ∃ st, r = errorRecord c.input (g.tokens st) w
  | 0, _, _, _, _, he => by simp [run] at he
  | n + 1, c, w, l, r, he => by
      unfold run at he
      split_ifs at he with hc
      · cases hs : step g S c with
        | next c' evs =>
            rw [hs, List.mem_append] at he
            rcases he with he | he
            · exact ⟨c.state, (step_error_inv (by rw [hs]; exact he)).2.2⟩
            · rw [← (step_lines hc hs).1]
              exact run_error_record n c' he
        | abort r' evs =>
            rw [hs] at he
            exact ⟨c.state, (step_error_inv (by rw [hs]; exact he)).2.2⟩
      · simp at he

variable (g S)

/-- On `\r\n` before `foo` the line count is 3 at the error on line 2, and
where `number` reads past a line feed it is 2 at the error on line 3. -/
theorem linecnt_miscounts :
    errorLines (run workspaceGrammar stackStore 16 (begin workspaceGrammar
        (initGlobals workspaceGrammar stackStore) "\r\nfoo\r\n".toList)).events = [(2, 3)] ∧
      ("\r\nfoo\r\n".toList.take 2).count '\n' = 1 ∧
      errorLines (run workspaceGrammar stackStore 16 (begin workspaceGrammar
        (initGlobals workspaceGrammar stackStore) "workspace\n5\nfoo\n".toList)).events = [(12, 2)] ∧
      ("workspace\n5\nfoo\n".toList.take 12).count '\n' = 2 := by
  decide

/-- At every error a parse reports away from a CR or LF, the record carries the
input and a caret line under the cursor's own line, with `^` from the
cursor's column to the end of that line. -/
theorem error_caret_line (G : Globals σ κ) (s : List Char) (n : Nat) :
    ∀ w l r, Event.error w l r ∈ (run g S n (begin g G s)).events → isLineEnd (cAt s w) = false →
      r.input = s ∧ CaretLine s w r.errorposition := by
  intro w l r he hw
  obtain ⟨st, rfl⟩ := run_error_record n _ he
  exact ⟨rfl, errorPosition_caretLine hw⟩

theorem error_caret_line_workspace :
    Event.error 10 1 (errorRecord "workspace x\n".toList (workspaceGrammar.tokens 1) 10) ∈
        (run workspaceGrammar stackStore 16 (begin workspaceGrammar
          (initGlobals workspaceGrammar stackStore) "workspace x\n".toList)).events ∧
      isLineEnd (cAt "workspace x\n".toList 10) = false ∧
      (errorRecord "workspace x\n".toList (workspaceGrammar.tokens 1) 10).input = "workspace x\n".toList ∧
      CaretLine "workspace x\n".toList 10
        (errorRecord "workspace x\n".toList (workspaceGrammar.tokens 1) 10).errorposition :=
  have h : Event.error 10 1 (errorRecord "workspace x\n".toList (workspaceGrammar.tokens 1) 10) ∈
      (run workspaceGrammar stackStore 16 (begin workspaceGrammar
        (initGlobals workspaceGrammar stackStore) "workspace x\n".toList)).events := List.Mem.head _
  have hw : isLineEnd (cAt "workspace x\n".toList 10) = false := by decide
  ⟨h, hw, error_caret_line workspaceGrammar stackStore _ _ 16 10 1 _ h hw⟩

/-- `workspace` with its number missing: the error is reported on the line
feed, where `start_of_line` returns the offset after it, so the caret line
underlines the empty line that follows. -/
theorem caret_after_newline :
    cAt "workspace\n".toList 9 = '\n' ∧
      errorLines (run workspaceGrammar stackStore 16 (begin workspaceGrammar
        (initGlobals workspaceGrammar stackStore) "workspace\n".toList)).events = [(9, 1)] ∧
      errorPositions (run workspaceGrammar stackStore 16 (begin workspaceGrammar
        (initGlobals workspaceGrammar stackStore) "workspace\n".toList)).events = [[]] ∧
      startOfLine "workspace\n".toList 9 = 10 := by
  decide

end I3Config.Diagnostics

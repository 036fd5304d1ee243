import I3Config.Driver
import I3Config.CaptureWindow

namespace I3Config.Captures

open ValueStack Tables Lexer Driver CaptureWindow

variable {σ : Type}

/-- The values a matched descriptor captures: its identifier with the value it
read, as `push_string` or `push_long` receives them. -/
def captured (t : Token σ) (value : Option StackVal) : Window :=
  match t.identifier, value with
  | some x, some v => [(x, v)]
  | _, _ => []

theorem capture_represents {t : Token σ} {value : Option StackVal} {k : Stack} {w : Window}
    (hk : Represents k w) (hok : WindowOk (w ++ captured t value)) :
    ∃ k', capture stackStore t value k = .ok k' ∧ Represents k' (w ++ captured t value) := by
  unfold capture
  unfold captured at hok ⊢
  cases hid : t.identifier with
  | none => exact ⟨k, rfl, by simpa using hk⟩
  | some x =>
      simp only [hid] at hok
      rcases value with _ | s | n
      · exact ⟨k, rfl, by simpa using hk⟩
      · exact represents_pushString hk hok
      · exact represents_pushLong hk hok

variable [DecidableEq σ] (g : Grammar σ)

theorem nextState_stack (t : Token σ) (G : Globals σ Stack) :
    (nextState g stackStore t G).1.stack =
      if t.nextState = g.CALL ∨ (nextState g stackStore t G).1.state = g.INITIAL then emptyStack else G.stack := by
  simp only [nextState, stackStore_clear]
  split_ifs <;> simp_all

theorem mem_nextState_events {t : Token σ} {G : Globals σ Stack} {i : UInt16} {v : View}
    (h : Event.call i v ∈ (nextState g stackStore t G).2) : t.nextState = g.CALL ∧ v = lookup G.stack := by
  simp only [nextState] at h
  split_ifs at h with hc
  · simp only [List.mem_singleton, Event.call.injEq] at h
    exact ⟨hc, h.2⟩
  · simp at h

theorem step_clears {c c' : Config σ Stack} {ev : List Event} (h : step g stackStore c = .next c' ev)
    (hw : (∃ i v, Event.call i v ∈ ev) ∨ c'.state = g.INITIAL ∨
      ∃ w, matchTokens c.input (g.tokens c.state) (tokenStart c) = .unmatched w) :
    c'.stack = emptyStack := by
  unfold step at h
  cases hm : matchTokens c.input (g.tokens c.state) (tokenStart c) with
  | matched t w v nl =>
      rw [hm] at h
      obtain ⟨k, -, -, rfl, rfl⟩ := advance_next g stackStore h
      rw [nextState_stack, if_pos]
      rcases hw with ⟨i, v, hv⟩ | hs | ⟨_, hu⟩
      · exact .inl (mem_nextState_events g hv).1
      · exact .inr hs
      · cases hm.symm.trans hu
  | unmatched w =>
      rw [hm] at h
      obtain ⟨t, -, -, rfl, -⟩ := recover_next g stackStore h
      rw [nextState_stack]
      split_ifs <;> rfl

def callWindow (c : Config σ Stack) (w : Window) : Window :=
  match matchTokens c.input (g.tokens c.state) (tokenStart c) with
  | .matched t _ value _ => w ++ captured t value
  | .unmatched _ => []

/-- The window after the iteration from `c` to `c'`: a `__CALL` edge, entering
`INITIAL` and an error recovery begin a new one. -/
def nextWindow (c c' : Config σ Stack) (w : Window) : Window :=
  match matchTokens c.input (g.tokens c.state) (tokenStart c) with
  | .matched t _ _ _ => if t.nextState = g.CALL ∨ c'.state = g.INITIAL then [] else callWindow g c w
  | .unmatched _ => []

/-- The points of a parse that starts from an empty stack, each with the window
of values captured since the window began, along iterations whose windows keep
the provisos. -/
inductive Windowed : Config σ Stack → Window → Prop
  | start (G : Globals σ Stack) (input : List Char) : G.stack = emptyStack → Windowed (begin g G input) []
  | move {c c' : Config σ Stack} {w : Window} {ev : List Event} : Windowed c w → c.walk ≤ c.input.length →
      WindowOk (callWindow g c w) → step g stackStore c = .next c' ev → Windowed c' (nextWindow g c c' w)

theorem step_windowed {c : Config σ Stack} {w : Window} (hk : Represents c.stack w)
    (hok : WindowOk (callWindow g c w)) :
    (∀ i v, Event.call i v ∈ (step g stackStore c).events → v = windowValue (callWindow g c w)) ∧
      (∀ c' ev, step g stackStore c = .next c' ev → Represents c'.stack (nextWindow g c c' w)) ∧
      (∀ r ev, step g stackStore c = .abort r ev → r = .noErrorToken ∨ r = .trailOverflow) := by
  unfold callWindow at hok
  unfold step nextWindow callWindow
  cases hm : matchTokens c.input (g.tokens c.state) (tokenStart c) with
  | matched t walk value nl =>
      rw [hm] at hok
      obtain ⟨k, hc, hk'⟩ := capture_represents hk hok
      have hcall : ∀ i v, Event.call i v ∈ (nextState g stackStore t ⟨c.state, c.statelist, k⟩).2 →
          v = windowValue (w ++ captured t value) := fun i v h =>
        (mem_nextState_events g h).2.trans (lookup_of_represents hk')
      simp only [advance, hc]
      split_ifs
      · refine ⟨hcall, fun _ _ h => h.elim, fun _ _ h => ?_⟩
        cases h; exact .inr rfl
      all_goals
        refine ⟨hcall, fun c' ev h => ?_, fun _ _ h => h.elim⟩
        cases h
        rw [nextState_stack]
        split_ifs
        · exact represents_empty
        · exact hk'
  | unmatched walk =>
      have hcall : ∀ t i v, Event.call i v ∈ (nextState g stackStore t ⟨c.state, c.statelist, emptyStack⟩).2 →
          v = windowValue [] := fun t i v h =>
        (mem_nextState_events g h).2.trans (lookup_of_represents represents_empty)
      cases hf : findErrorToken g c.statelist with
      | none =>
          simp only [recover, hf]
          refine ⟨fun i v h => ?_, fun _ _ h => ?_, fun _ _ h => ?_⟩
          · simp [Outcome.events] at h
          · cases h
          · cases h; exact .inl rfl
      | some t =>
          simp only [recover, hf]
          split_ifs
          · refine ⟨fun i v h => hcall t i v ?_, fun _ _ h => h.elim, fun _ _ h => ?_⟩
            · simpa [Outcome.events] using h
            · cases h; exact .inr rfl
          · refine ⟨fun i v h => hcall t i v ?_, fun c' ev h => ?_, fun _ _ h => h.elim⟩
            · simpa [Outcome.events] using h
            · cases h
              rw [nextState_stack]
              split_ifs <;> exact represents_empty

end I3Config.Captures

import I3Config.ValueStack
import Mathlib.Data.List.Nodup

namespace I3Config.Tables

open ValueStack

/-- A `cmdp_token`: the descriptor name is a literal spelling after an
apostrophe, or one of the kinds `number`, `string`, `word`, `line`, `end`,
`error`. -/
structure Token (σ : Type) where
  name : String
  identifier : Option String
  nextState : σ
  callIdentifier : UInt16
  deriving DecidableEq, Repr

/-- The generated tables: the state enumeration with `INITIAL` and the
`__CALL` sentinel, the `tokens` array, and `GENERATED_call`, which runs the
handler for a call identifier on the captured values and returns the state it
selects. Token names are C strings. -/
structure Grammar (σ : Type) where
  INITIAL : σ
  CALL : σ
  tokens : σ → List (Token σ)
  call : UInt16 → View → σ
  names_nul_free : ∀ st, ∀ t ∈ tokens st, '\x00' ∉ t.name.toList

variable {σ : Type}

/-- The recovery search: from the top of the trail down, the first state with
an `error` descriptor, and its first such descriptor. -/
def findErrorToken (g : Grammar σ) (statelist : List σ) : Option (Token σ) :=
  statelist.reverse.findSome? fun st => (g.tokens st).find? fun t => t.name = "error"

section Transition

variable [DecidableEq σ]

/-- The state `next_state` commits to for a token: the handler's choice on a
`__CALL` edge, the token's own state otherwise. -/
def target (g : Grammar σ) (t : Token σ) (view : View) : σ :=
  if t.nextState = g.CALL then g.call t.callIdentifier view else t.nextState

/-- The `statelist` update of `next_state`: cut the trail after an earlier
occurrence of the state, or append it. The list is the live prefix
`statelist[0 .. statelist_idx)`. -/
def enterState : List σ → σ → List σ
  | [], next => [next]
  | st :: rest, next => if st = next then [st] else st :: enterState rest next

@[simp] theorem enterState_ne_nil : ∀ (l : List σ) (next : σ), enterState l next ≠ []
  | [], _ => by simp [enterState]
  | st :: rest, next => by unfold enterState; split_ifs <;> simp

theorem enterState_head? {l : List σ} {a : σ} (h : l.head? = some a) (next : σ) :
    (enterState l next).head? = some a := by
  cases l with
  | nil => simp at h
  | cons st rest => simp only [List.head?_cons, Option.some.injEq] at h; subst h; unfold enterState; split_ifs <;> rfl

theorem enterState_getLast? (l : List σ) (next : σ) : (enterState l next).getLast? = some next := by
  induction l with
  | nil => rfl
  | cons st rest ih =>
      simp only [enterState]
      split_ifs with h
      · simp [h]
      · rw [List.getLast?_cons, ih]; rfl

theorem mem_enterState {l : List σ} {next a : σ} (h : a ∈ enterState l next) : a ∈ l ∨ a = next := by
  induction l with
  | nil => simpa [enterState] using h
  | cons st rest ih =>
      simp only [enterState] at h
      split_ifs at h
      · simp_all
      · rcases List.mem_cons.1 h with rfl | h
        · simp
        · rcases ih h with h | h <;> simp [h]

theorem enterState_nodup {l : List σ} (h : l.Nodup) (next : σ) : (enterState l next).Nodup := by
  induction l with
  | nil => simp [enterState]
  | cons st rest ih =>
      simp only [enterState]
      split_ifs with hs
      · simp
      · rw [List.nodup_cons] at h ⊢
        refine ⟨fun hm => ?_, ih h.2⟩
        rcases mem_enterState hm with hm | rfl
        · exact h.1 hm
        · exact hs rfl

/-- `statelist[statelist_idx++] = _next_state` past the end of `statelist[10]`:
the state is new to the trail and its ten entries are taken. -/
def TrailFull (statelist : List σ) (next : σ) : Prop := next ∉ statelist ∧ 10 ≤ statelist.length

instance (l : List σ) (next : σ) : Decidable (TrailFull l next) := inferInstanceAs (Decidable (_ ∧ _))

theorem enterState_of_not_mem {next : σ} : ∀ {l : List σ}, next ∉ l → enterState l next = l ++ [next]
  | [], _ => rfl
  | st :: rest, h => by
      rw [List.mem_cons, not_or] at h
      rw [enterState, if_neg (Ne.symm h.1), enterState_of_not_mem h.2, List.cons_append]

theorem enterState_length_of_mem {next : σ} : ∀ {l : List σ}, next ∈ l → (enterState l next).length ≤ l.length
  | [], h => absurd h (List.not_mem_nil _)
  | st :: rest, h => by
      unfold enterState
      split_ifs with hs
      · simp
      · have := enterState_length_of_mem ((List.mem_cons.1 h).resolve_left (Ne.symm hs))
        simpa using this

theorem enterState_length_le {l : List σ} {next : σ} (h : ¬TrailFull l next) (hl : l.length ≤ 10) :
    (enterState l next).length ≤ 10 := by
  by_cases hm : next ∈ l
  · exact (enterState_length_of_mem hm).trans hl
  · rw [enterState_of_not_mem hm, List.length_append, List.length_singleton]
    have : l.length < 10 := Nat.lt_of_not_le fun h' => h ⟨hm, h'⟩
    omega

end Transition

theorem findErrorToken_isSome {g : Grammar σ} {l : List σ} {st : σ} (hst : st ∈ l)
    (he : ∃ t ∈ g.tokens st, t.name = "error") : (findErrorToken g l).isSome := by
  obtain ⟨t, ht, hn⟩ := he
  have hf : ((g.tokens st).find? fun t => t.name = "error").isSome :=
    List.find?_isSome.2 ⟨t, ht, by simpa using hn⟩
  unfold findErrorToken
  cases h : l.reverse.findSome? (fun st => (g.tokens st).find? fun t => t.name = "error") with
  | some _ => rfl
  | none =>
      rw [List.findSome?_eq_none_iff] at h
      simp [h st (List.mem_reverse.2 hst)] at hf

theorem findErrorToken_name {g : Grammar σ} {l : List σ} {t : Token σ}
    (h : findErrorToken g l = some t) : ∃ st ∈ l, t ∈ g.tokens st ∧ t.name = "error" := by
  obtain ⟨st, hst, hf⟩ := List.exists_of_findSome?_eq_some h
  exact ⟨st, List.mem_reverse.1 hst, List.mem_of_find?_eq_some hf, by simpa using List.find?_some hf⟩

end I3Config.Tables

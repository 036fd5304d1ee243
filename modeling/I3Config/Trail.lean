import I3Config.Driver
import Mathlib.Data.Fintype.Card

namespace I3Config.Trail

open ValueStack Tables Lexer Driver

variable {σ κ : Type} [DecidableEq σ] {g : Grammar σ} {S : CaptureStore κ}

/-- The state trail lists distinct states from `INITIAL` up to the current
state, at most ten of them. -/
structure TrailOk (g : Grammar σ) (c : Config σ κ) : Prop where
  head : c.statelist.head? = some g.INITIAL
  nodup : c.statelist.Nodup
  last : c.statelist.getLast? = some c.state
  bounded : c.statelist.length ≤ 10

omit [DecidableEq σ] in
theorem TrailOk.length_pos {c : Config σ κ} (h : TrailOk g c) : 0 < c.statelist.length :=
  List.length_pos.2 fun hn => by simpa [hn] using h.head

theorem step_globals {c c' : Config σ κ} {events : List Event}
    (h : step g S c = .next c' events) :
    ∃ t k, c'.toGlobals = (nextState g S t ⟨c.state, c.statelist, k⟩).1 ∧ ¬TrailFull c.statelist c'.state := by
  unfold step at h
  split at h
  · obtain ⟨k, -, hf, rfl, -⟩ := advance_next g S h
    exact ⟨_, _, rfl, hf⟩
  · obtain ⟨t, -, hf, rfl, -⟩ := recover_next g S h
    exact ⟨_, _, rfl, hf⟩

theorem trailOk_nextState {c : Config σ κ} (h : TrailOk g c) (t : Token σ) (k : κ)
    (hf : ¬TrailFull c.statelist (nextState g S t ⟨c.state, c.statelist, k⟩).1.state) :
    let G := (nextState g S t ⟨c.state, c.statelist, k⟩).1
    G.statelist.head? = some g.INITIAL ∧ G.statelist.Nodup ∧ G.statelist.getLast? = some G.state ∧
      G.statelist.length ≤ 10 :=
  ⟨enterState_head? h.head _, enterState_nodup h.nodup _, enterState_getLast? _ _, enterState_length_le hf h.bounded⟩

theorem trailOk_step {c c' : Config σ κ} {events : List Event} (h : TrailOk g c)
    (hs : step g S c = .next c' events) : TrailOk g c' := by
  obtain ⟨t, k, hG, hf⟩ := step_globals hs
  rw [show c'.state = c'.toGlobals.state from rfl, hG] at hf
  obtain ⟨h1, h2, h3, h4⟩ := trailOk_nextState h t k hf
  rw [← hG] at h1 h2 h3 h4
  exact ⟨h1, h2, h3, h4⟩

omit [DecidableEq σ] in
theorem trailOk_begin {G : Globals σ κ} (h : G.statelist.head? = some g.INITIAL) (input : List Char) :
    TrailOk g (begin g G input) := by
  rcases G with ⟨st, _ | ⟨a, l⟩, k⟩
  · simp at h
  · simp only [List.head?_cons, Option.some.injEq] at h
    subst h
    exact ⟨rfl, List.nodup_singleton _, rfl, by simp [begin]⟩

/-- The trail invariant holds at every point of every run of `parse_config`
in a process: the trail never outgrows the state enumeration, with at most
ten states no iteration writes past `statelist[10]`, and the recovery search
always reaches an `error` descriptor of `INITIAL`. -/
theorem statelist_invariant [Fintype σ] {c : Config σ κ} (hc : Reachable g S c) :
    TrailOk g c ∧ 1 ≤ c.statelist.length ∧ c.statelist.length ≤ Fintype.card σ ∧
      (Fintype.card σ ≤ 10 → ∀ next, ¬TrailFull c.statelist next) ∧
      ((∃ t ∈ g.tokens g.INITIAL, t.name = "error") → (findErrorToken g c.statelist).isSome) := by
  have hok : TrailOk g c := by
    induction hc with
    | start input => exact trailOk_begin (G := initGlobals g S) rfl input
    | move _ hm ih => exact trailOk_step ih hm.2.choose_spec
    | restart input _ _ ih => exact trailOk_begin ih.head input
  refine ⟨hok, hok.length_pos, hok.nodup.length_le_card, fun h10 next ⟨hn, hl⟩ => ?_,
    fun he => findErrorToken_isSome (List.mem_of_mem_head? hok.head) he⟩
  have := (List.nodup_cons.2 ⟨hn, hok.nodup⟩).length_le_card
  simp only [List.length_cons] at this
  omega

theorem statelist_invariant_recovered :
    TrailOk workspaceGrammar
        (⟨⟨0, [0], emptyStack⟩, "workspace 5\nx\n".toList, 13, 2⟩ : Config (Fin 3) Stack) ∧
      1 ≤ [(0 : Fin 3)].length ∧ [(0 : Fin 3)].length ≤ Fintype.card (Fin 3) ∧
      (Fintype.card (Fin 3) ≤ 10 → ∀ next, ¬TrailFull [(0 : Fin 3)] next) ∧
      ((∃ t ∈ workspaceGrammar.tokens workspaceGrammar.INITIAL, t.name = "error") →
        (findErrorToken workspaceGrammar [(0 : Fin 3)]).isSome) :=
  statelist_invariant (S := stackStore)
    (Reachable.move (Reachable.move (Reachable.move (Reachable.move (Reachable.start "workspace 5\nx\n".toList)
      ⟨by decide, _, rfl⟩) ⟨by decide, _, rfl⟩) ⟨by decide, _, rfl⟩) ⟨by decide, _, rfl⟩)

omit [DecidableEq σ] in
theorem begin_of_empty {c : Config σ Stack} (hc : TrailOk g c) (hk : c.stack = emptyStack)
    (input : List Char) : begin g c.toGlobals input = begin g (initGlobals g stackStore) input := by
  have hl : c.statelist.take 1 = [g.INITIAL] := by
    rcases hl : c.statelist with _ | ⟨a, l⟩
    · simpa [hl] using hc.head
    · simpa [hl] using hc.head
  simp only [begin, initGlobals, hl, hk]
  rfl

/-- Eleven states in a chain: from each state the literal `a` enters the next
one, so every byte of `aaaa…` puts a new state on the trail. -/
def chainGrammar : Grammar (Fin 12) where
  INITIAL := 0
  CALL := 11
  tokens st := [⟨"'a", none, st + 1, 0⟩, ⟨"error", none, 0, 0⟩]
  call _ _ := 0
  names_nul_free := by decide

/-- After nine `a` the trail holds ten states; the tenth `a` enters a new
state, and `next_state` writes it to `statelist[10]`, past the array. -/
theorem trail_overflows :
    (∃ c, (run chainGrammar stackStore 9 (begin chainGrammar (initGlobals chainGrammar stackStore)
        "aaaaaaaaaa".toList)).final = .running c ∧ c.statelist = [0, 1, 2, 3, 4, 5, 6, 7, 8, 9] ∧
        TrailFull c.statelist 10) ∧
      (run chainGrammar stackStore 10 (begin chainGrammar (initGlobals chainGrammar stackStore)
        "aaaaaaaaaa".toList)).final = .abort .trailOverflow :=
  ⟨⟨_, rfl, rfl, by decide⟩, rfl⟩

end I3Config.Trail

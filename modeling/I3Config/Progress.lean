import I3Config.Driver
import Mathlib.Data.List.Chain

namespace I3Config.Progress

open CString ValueStack Tables Lexer Report Driver

variable {σ κ : Type} [DecidableEq σ] {g : Grammar σ} {S : CaptureStore κ}

def HasEnd (g : Grammar σ) (st : σ) : Prop := ∃ t ∈ g.tokens st, t.name = "end"

instance (g : Grammar σ) : DecidablePred (HasEnd g) :=
  fun _ => inferInstanceAs (Decidable (∃ t ∈ _, _))

/-- What every iteration lowers: twice the bytes left, plus one unless the
cursor is on a line feed in a state that accepts `end`. -/
def pot (g : Grammar σ) (c : Config σ κ) : Nat :=
  2 * (c.input.length + 1 - c.walk) + if cAt c.input c.walk = '\n' ∧ HasEnd g c.state then 0 else 1

def errorWalks : List Event → List Nat
  | [] => []
  | .error w _ _ :: es => w :: errorWalks es
  | .call _ _ :: es => errorWalks es

def LfBetween (s : List Char) (p q : Nat) : Prop := ∃ k, p ≤ k ∧ k < q ∧ cAt s k = '\n'

@[simp] theorem errorWalks_append (es fs : List Event) :
    errorWalks (es ++ fs) = errorWalks es ++ errorWalks fs := by
  induction es with
  | nil => rfl
  | cons e es ih => cases e <;> simp [errorWalks, ih]

@[simp] theorem errorWalks_nextState (t : Token σ) (G : Globals σ κ) :
    errorWalks (nextState g S t G).2 = [] := by
  unfold nextState; split_ifs <;> rfl

theorem untilNewline_le : ∀ l : List Char, untilNewline l ≤ l.length + 1
  | [] => le_rfl
  | c :: cs => by unfold untilNewline; split_ifs <;> simp [untilNewline_le cs]

theorem untilNewline_spec : ∀ l : List Char, cAt l (untilNewline l) = '\n' ∨ untilNewline l = l.length + 1
  | [] => .inr rfl
  | c :: cs => by
      unfold untilNewline
      split_ifs with h
      · exact .inl h
      · simpa using untilNewline_spec cs

theorem skipWhitespace_le (l : List Char) : skipWhitespace l ≤ l.length :=
  (List.takeWhile_sublist _).length_le

theorem skipWhitespace_newline {l : List Char} (h : cAt l 0 = '\n') : skipWhitespace l = 0 := by
  cases l with
  | nil => simp at h
  | cons c cs => simp only [cAt_cons_zero] at h; subst h; rfl

theorem step_cases {c c' : Config σ κ} {evs : List Event} (h : step g S c = .next c' evs) :
    c'.input = c.input ∧
      ((∃ t v nl, matchTokens c.input (g.tokens c.state) (tokenStart c) = .matched t c'.walk v nl ∧
          errorWalks evs = []) ∨
       (∃ w t st, matchTokens c.input (g.tokens c.state) (tokenStart c) = .unmatched w ∧
          st ∈ c.statelist ∧ t ∈ g.tokens st ∧ t.name = "error" ∧
          c'.walk = skipLine c.input w ∧ c'.state = target g t (S.view (S.clear c.stack)) ∧
          errorWalks evs = [w])) := by
  unfold step at h
  split at h
  · rename_i t w v nl hm
    obtain ⟨k, -, -, rfl, rfl⟩ := advance_next g S h
    exact ⟨rfl, .inl ⟨_, _, _, hm, errorWalks_nextState ..⟩⟩
  · rename_i w hm
    obtain ⟨t, ht, -, rfl, rfl⟩ := recover_next g S h
    obtain ⟨st, hst, htm, hn⟩ := findErrorToken_name ht
    exact ⟨rfl, .inr ⟨w, t, st, hm, hst, htm, hn, rfl, rfl, by simp [errorWalks]⟩⟩

theorem step_abort {c : Config σ κ} {r : Stop} {evs : List Event} (h : step g S c = .abort r evs) :
    errorWalks evs = [] ∨
      ∃ w, matchTokens c.input (g.tokens c.state) (tokenStart c) = .unmatched w ∧ errorWalks evs = [w] := by
  unfold step at h
  split at h
  · rename_i t w v nl _
    unfold advance at h
    cases hc : capture S t v c.stack with
    | error r => rw [hc] at h; cases h; exact .inl rfl
    | ok k =>
        rw [hc] at h
        dsimp only at h
        split_ifs at h
        cases h; exact .inl (by simp)
  · rename_i w hm
    unfold recover at h
    split at h
    · cases h; exact .inr ⟨w, hm, rfl⟩
    · dsimp only at h
      split_ifs at h
      cases h; exact .inr ⟨w, hm, by simp [errorWalks]⟩

omit [DecidableEq σ] in
theorem tokenStart_bounds {c : Config σ κ} (hc : c.walk ≤ c.input.length) :
    c.walk ≤ tokenStart c ∧ tokenStart c ≤ c.input.length := by
  have := skipWhitespace_le (c.input.drop c.walk)
  simp only [List.length_drop] at this
  unfold tokenStart; omega

omit [DecidableEq σ] in
theorem not_unmatched_newline {c : Config σ κ} (hlf : cAt c.input c.walk = '\n')
    (he : HasEnd g c.state) (w : Nat) :
    matchTokens c.input (g.tokens c.state) (tokenStart c) ≠ .unmatched w := by
  have h0 : cAt (c.input.drop c.walk) 0 = '\n' := by rw [cAt_drop, Nat.add_zero]; exact hlf
  have hs : tokenStart c = c.walk := by simp only [tokenStart, skipWhitespace_newline h0, Nat.add_zero]
  obtain ⟨t, w', v, nl, hm⟩ := matchTokens_newline (w := tokenStart c) (by rw [hs]; exact hlf) he
  rw [hm]; exact fun h => nomatch h

/-- Since the last error record at `p`, the cursor has passed a line feed, or
waits on one in a state that accepts `end`, or the input is exhausted. -/
def Spaced (g : Grammar σ) (last : Option Nat) (c : Config σ κ) : Prop :=
  ∀ p ∈ last, LfBetween c.input p c.walk ∨
    (p ≤ c.walk ∧ cAt c.input c.walk = '\n' ∧ HasEnd g c.state) ∨ c.input.length < c.walk

theorem LfBetween.mono {s : List Char} {p q q' : Nat} (h : LfBetween s p q) (hq : q ≤ q') :
    LfBetween s p q' :=
  let ⟨k, h1, h2, h3⟩ := h; ⟨k, h1, by omega, h3⟩

omit [DecidableEq σ] in
theorem unmatched_spaced {c : Config σ κ} {last : Option Nat} (hc : c.walk ≤ c.input.length)
    (hsp : Spaced g last c) {w : Nat}
    (hm : matchTokens c.input (g.tokens c.state) (tokenStart c) = .unmatched w) :
    ∀ p ∈ last, LfBetween c.input p w := by
  intro p hp
  have hw := (matchTokens_unmatched (tokenStart_bounds hc).2 hm).1
  have hs := (tokenStart_bounds hc).1
  rcases hsp p hp with h | ⟨-, hlf, he⟩ | h
  · exact h.mono (by omega)
  · exact absurd hm (not_unmatched_newline hlf he w)
  · omega

section Recovering

variable (ha : ∀ st, ∀ t ∈ g.tokens st, isLiteral t → spelling t ≠ [])
  (hb : ∀ st, ∀ t ∈ g.tokens st, t.name = "error" → ∀ k, HasEnd g (target g t (S.view (S.clear k))))

omit [DecidableEq σ] in
include ha in
theorem matched_bounds {c : Config σ κ} (hc : c.walk ≤ c.input.length) {t : Token σ} {w : Nat}
    {v : Option StackVal} {nl : Bool}
    (h : matchTokens c.input (g.tokens c.state) (tokenStart c) = .matched t w v nl) :
    c.walk < w ∧ w ≤ c.input.length + 1 := by
  obtain ⟨h1, h2⟩ := tokenStart_bounds hc
  obtain ⟨-, h3, h4⟩ := matchTokens_matched (ha c.state)
    (fun t ht hm => g.names_nul_free _ t ht (List.mem_of_mem_tail hm)) h2 h
  omega

include ha hb in
theorem pot_step {c c' : Config σ κ} {evs : List Event} (hc : c.walk ≤ c.input.length)
    (h : step g S c = .next c' evs) : c'.walk ≤ c'.input.length + 1 ∧ pot g c' < pot g c := by
  obtain ⟨hin, ⟨t, v, nl, hm, -⟩ | ⟨w, t, st, hm, -, ht, hn, hw, hstate, -⟩⟩ := step_cases h
  · obtain ⟨h1, h2⟩ := matched_bounds ha hc hm
    unfold pot; rw [hin]; split_ifs <;> omega
  · obtain ⟨h3, h4⟩ := matchTokens_unmatched (tokenStart_bounds hc).2 hm
    have h1 := (tokenStart_bounds hc).1
    have h5 := untilNewline_le (c.input.drop w)
    simp only [List.length_drop] at h5
    have hend : HasEnd g c'.state := hstate ▸ hb st t ht hn c.stack
    have hbit : ¬(cAt c.input c.walk = '\n' ∧ HasEnd g c.state) :=
      fun ⟨hlf, he⟩ => not_unmatched_newline hlf he w hm
    unfold skipLine at hw
    refine ⟨by rw [hin]; omega, ?_⟩
    unfold pot; rw [hin, if_neg hbit]
    rcases Nat.lt_or_ge c.walk c'.walk with hlt | hge
    · split_ifs <;> omega
    · have hw0 : untilNewline (c.input.drop w) = 0 := by omega
      have hlf : cAt c.input c'.walk = '\n' := by
        rcases untilNewline_spec (c.input.drop w) with h' | h'
        · rw [hw0, cAt_drop] at h'; rwa [hw, hw0]
        · omega
      rw [if_pos ⟨hlf, hend⟩]; omega

include ha hb in
theorem run_finishes : ∀ (n : Nat) (c : Config σ κ), c.walk ≤ c.input.length + 1 → pot g c < n →
    (∃ r, (run g S n c).final = .abort r) ∨
      ∃ c', (run g S n c).final = .done c' ∧ c'.input = c.input ∧ c'.walk = c.input.length + 1
  | 0, _, _, hn => absurd hn (Nat.not_lt_zero _)
  | n + 1, c, hc, hn => by
      unfold run
      split_ifs with hle
      · cases hs : step g S c with
        | next c' evs =>
            obtain ⟨h1, h2⟩ := pot_step ha hb hle hs
            have hin := (step_cases hs).1
            rcases run_finishes n c' h1 (by omega) with h | ⟨c'', h, h3, h4⟩
            · exact .inl h
            · exact .inr ⟨c'', h, h3.trans hin, hin ▸ h4⟩
        | abort r evs => exact .inl ⟨r, rfl⟩
      · exact .inr ⟨c, rfl, rfl, by omega⟩

include ha hb in
theorem spaced_step {c c' : Config σ κ} {evs : List Event} {last : Option Nat}
    (hc : c.walk ≤ c.input.length) (hsp : Spaced g last c) (h : step g S c = .next c' evs) :
    (errorWalks evs = [] ∧ Spaced g last c') ∨
      ∃ w, errorWalks evs = [w] ∧ (∀ p ∈ last, LfBetween c.input p w) ∧ Spaced g (some w) c' := by
  obtain ⟨hin, ⟨t, v, nl, hm, he⟩ | ⟨w, t, st, hm, -, ht, hn, hw, hstate, he⟩⟩ := step_cases h
  · refine .inl ⟨he, fun p hp => .inl ?_⟩
    have hlt := (matched_bounds ha hc hm).1
    rw [hin]
    rcases hsp p hp with h' | ⟨hp', hlf, -⟩ | h'
    · exact h'.mono hlt.le
    · exact ⟨c.walk, hp', hlt, hlf⟩
    · omega
  · refine .inr ⟨w, he, unmatched_spaced hc hsp hm, fun p hp => ?_⟩
    rw [(Option.mem_some_iff.1 hp).symm, hin]
    have hend : HasEnd g c'.state := hstate ▸ hb st t ht hn c.stack
    have hle := (matchTokens_unmatched (tokenStart_bounds hc).2 hm).2
    unfold skipLine at hw
    rcases untilNewline_spec (c.input.drop w) with h' | h'
    · exact .inr (.inl ⟨by omega, by rw [hw]; simpa [cAt_drop] using h', hend⟩)
    · simp only [List.length_drop] at h'
      exact .inr (.inr (by omega))

include ha hb in
theorem run_spaced : ∀ (n : Nat) (c : Config σ κ) (last : Option Nat), Spaced g last c →
    (last.toList ++ errorWalks (run g S n c).events).Chain' (LfBetween c.input)
  | 0, c, last, _ => by cases last <;> simp [run, errorWalks, List.chain'_singleton]
  | n + 1, c, last, hsp => by
      unfold run
      split_ifs with hle
      · cases hs : step g S c with
        | next c' evs =>
            have hin := (step_cases hs).1
            rcases spaced_step ha hb hle hsp hs with ⟨he, hsp'⟩ | ⟨w, he, hlf, hsp'⟩
            · simpa [he, hin] using run_spaced n c' last hsp'
            · have ih := run_spaced n c' (some w) hsp'
              rw [hin] at ih
              simp only [errorWalks_append, he]
              cases last with
              | none => simpa using ih
              | some p => simpa [List.chain'_cons] using ⟨hlf p rfl, ih⟩
        | abort r evs =>
            rcases step_abort hs with he | ⟨w, hm, he⟩
            · cases last <;> simp [he]
            · cases last with
              | none => simp [he]
              | some p => simp [he, List.chain'_cons, unmatched_spaced hle hsp hm p rfl]
      · cases last <;> simp [errorWalks, List.chain'_singleton]

end Recovering

theorem count_drop_lt {s : List Char} {p q k : Nat} (hpk : p ≤ k) (hkq : k < q)
    (hk : cAt s k = '\n') : (s.drop q).count '\n' < (s.drop p).count '\n' := by
  have hlen := cAt_lt_length hk (by decide)
  have hmem : '\n' ∈ (s.drop p).take (q - p) := by
    apply List.getElem?_mem (n := k - p)
    rw [List.getElem?_take_of_lt (by omega), List.getElem?_drop, Nat.add_sub_cancel' hpk,
      List.getElem?_eq_getElem hlen, ← hk]
    simp [cAt, hlen]
  have := List.count_pos_iff.2 hmem
  rw [← List.take_append_drop (q - p) (s.drop p), List.count_append, List.drop_drop,
    Nat.add_sub_cancel' (by omega)]
  omega

theorem chain_length_le {s : List Char} :
    ∀ {p : Nat} {l : List Nat}, (p :: l).Chain' (LfBetween s) → l.length ≤ (s.drop p).count '\n'
  | _, [], _ => Nat.zero_le _
  | _, _ :: _, h => by
      rw [List.chain'_cons] at h
      obtain ⟨k, h1, h2, h3⟩ := h.1
      have := chain_length_le h.2
      have := count_drop_lt h1 h2 h3
      simp only [List.length_cons]; omega

theorem errors_le_lines {s : List Char} {l : List Nat} (h : l.Chain' (LfBetween s)) :
    l.length ≤ 1 + s.count '\n' := by
  cases l with
  | nil => simp
  | cons p l =>
      have := chain_length_le h
      have := (List.drop_sublist p s).count_le '\n'
      simp only [List.length_cons]; omega

/-- What the point where the loop stops shows of the stop: every slot taken
for the `exit (1)`, no `error` descriptor on the trail for the `assert`, ten
states on the trail for the write past `statelist[10]`, and a number other
than 0 under an identifier for the pointer read. -/
def StopsAt (g : Grammar σ) (c : Config σ Stack) : Stop → Prop
  | .stackFull => ∀ slot ∈ c.stack.slots, slot.isSome
  | .noErrorToken => ∀ st ∈ c.statelist, ∀ t ∈ g.tokens st, t.name ≠ "error"
  | .trailOverflow => 10 ≤ c.statelist.length
  | .wildPointer => ∃ x n, n ≠ 0 ∧ lookup c.stack x = some (.long n)

omit [DecidableEq σ] in
theorem capture_error {t : Token σ} {v : Option StackVal} {c : Config σ Stack} {r : Stop}
    (h : capture stackStore t v c.stack = .error r) : StopsAt g c r := by
  unfold capture at h
  split at h
  · rcases pushStringSlots_error (pushString_error.1 h) with ⟨rfl, hs⟩ | ⟨rfl, n, hn, hl⟩
    · exact hs
    · exact ⟨_, n, hn, hl⟩
  · obtain ⟨rfl, hs⟩ := pushLongSlots_error (pushLong_error.1 h)
    exact hs
  · cases h

theorem stopsAt_of_step {c : Config σ Stack} {r : Stop} {evs : List Event}
    (h : step g stackStore c = .abort r evs) : StopsAt g c r := by
  unfold step at h
  split at h
  · rename_i t w v nl _
    unfold advance at h
    cases hc : capture stackStore t v c.stack with
    | error r' => rw [hc] at h; cases h; exact capture_error hc
    | ok k =>
        rw [hc] at h
        dsimp only at h
        split_ifs at h with hf
        cases h; exact hf.2
  · unfold recover at h
    split at h
    · rename_i hf
      cases h
      intro st hst t ht hn
      have := findErrorToken_isSome (g := g) hst ⟨t, ht, hn⟩
      rw [hf] at this
      cases this
    · dsimp only at h
      split_ifs at h with hf
      cases h; exact hf.2

theorem run_abort : ∀ {n : Nat} {c₀ : Config σ κ} {r : Stop}, (run g S n c₀).final = .abort r →
    ∃ m c evs, m < n ∧ (run g S m c₀).final = .running c ∧ step g S c = .abort r evs
  | 0, c₀, r, h => by simp only [run] at h; split_ifs at h
  | n + 1, c₀, r, h => by
      simp only [run] at h
      split_ifs at h with hw
      cases hs : step g S c₀ with
      | next d evs =>
          rw [hs] at h
          obtain ⟨m, c, evs', hm, hc, hst⟩ := run_abort h
          refine ⟨m + 1, c, evs', by omega, ?_, hst⟩
          simp only [run, if_pos hw, hs, hc]
      | abort r' evs =>
          rw [hs] at h
          cases h
          exact ⟨0, c₀, evs, Nat.succ_pos _, by simp [run, hw], hs⟩

def endOnly : Grammar (Fin 2) where
  INITIAL := 0
  CALL := 1
  tokens st := if st = 0 then [⟨"end", none, 0, 0⟩] else []
  call _ _ := 0
  names_nul_free := by decide

end I3Config.Progress

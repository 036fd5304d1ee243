import I3Config.Indentation
import I3Config.Trail
import I3Config.Diagnostics
import I3Config.Captures

namespace I3Config.Composition

open CString ValueStack Tables Lexer Recognizers Report Driver Progress Trail Blanks Indentation Diagnostics
  Captures

variable {σ κ : Type}

def widen (b : List Char) (c : Config σ κ) : Config σ κ := { c with input := c.input ++ b }

theorem widen_walk_le {b : List Char} {c : Config σ κ} (h : c.walk ≤ c.input.length) :
    (widen b c).walk ≤ (widen b c).input.length := by
  simp only [widen, List.length_append]; omega

/-- A point of the loop on `b`, seen in the parse of `a ++ b` whose line count
ran `d` ahead when the cursor reached `b`. -/
def shiftConfig (a : List Char) (d : Nat) (c : Config σ κ) : Config σ κ :=
  { c with input := a ++ c.input, walk := a.length + c.walk, linecnt := d + c.linecnt }

def relocate (a : List Char) (d : Nat) : Event → Event
  | .call i v => .call i v
  | .error w l r => .error (a.length + w) (d + l) { r with input := a ++ r.input }

def relocateFinal (a : List Char) (d : Nat) : Final σ κ → Final σ κ
  | .done c => .done (shiftConfig a d c)
  | .running c => .running (shiftConfig a d c)
  | .abort r => .abort r

inductive Entry
  | call (callIdentifier : UInt16) (view : View)
  | error (walk linecnt : Nat) (message : List Char)

def logEntry : Event → Entry
  | .call i v => .call i v
  | .error w l r => .error w l r.error

/-- One iteration at a point of the parse of `a ++ b` and at the same point
of the parse of `a`: the same outcome, with `b` after the input, and the same
log. -/
def StepWidens (b : List Char) : Outcome σ κ → Outcome σ κ → Prop
  | .next d ev, .next d' ev' => d = widen b d' ∧ ev.map logEntry = ev'.map logEntry
  | .abort r ev, .abort r' ev' => r = r' ∧ ev.map logEntry = ev'.map logEntry
  | _, _ => False

theorem takeWhile_append_of_neg {α : Type} {P : α → Bool} :
    ∀ {r : List α}, (∃ x ∈ r, P x = false) → ∀ b : List α,
      (r ++ b).takeWhile P = r.takeWhile P ∧ (r.takeWhile P).length < r.length
  | [], ⟨_, hx, _⟩, _ => absurd hx (List.not_mem_nil _)
  | x :: xs, ⟨y, hy, hPy⟩, b => by
      by_cases hx : P x = true
      · have hy' : ∃ z ∈ xs, P z = false := by
          rcases List.mem_cons.1 hy with rfl | h
          · simp [hx] at hPy
          · exact ⟨y, h, hPy⟩
        obtain ⟨h1, h2⟩ := takeWhile_append_of_neg hy' b
        simp only [List.cons_append, List.takeWhile_cons, hx, if_true, h1, List.length_cons, true_and]
        omega
      · simp [List.takeWhile_cons, hx]

theorem cAt_last {a : List Char} (ha : a.getLast? = some '\n') : cAt a (a.length - 1) = '\n' := by
  rw [List.getLast?_eq_getElem?] at ha
  simp [cAt, List.getD_eq_getElem?_getD, ha]

theorem getLast?_drop_lf {a : List Char} (ha : a.getLast? = some '\n') {w : Nat} (hw : w < a.length) :
    (a.drop w).getLast? = some '\n' := by
  rw [List.getLast?_drop, if_neg (by omega), ha]

theorem strncasecmp_append_lf : ∀ {l r : List Char}, '\n' ∉ l.dropLast → r.getLast? = some '\n' →
    ∀ b, strncasecmp (r ++ b) l l.length = strncasecmp r l l.length
  | [], _, _, _, _ => rfl
  | _ :: _, [], _, hr, _ => by simp at hr
  | x :: l, [c], hl, hr, b => by
      obtain rfl : c = '\n' := by simpa using hr
      obtain ⟨hnil, -⟩ := newline_dropLast hl
      by_cases hx : x = '\n'
      · obtain rfl := hnil hx
        subst hx
        simp [strncasecmp]
      · have hne : ¬('\n' = x.toLower) := fun h => hx (toLower_eq_of_lt h.symm (by decide))
        simp [strncasecmp, hne]
  | x :: l, c :: d :: cs, hl, hr, b => by
      have ih := strncasecmp_append_lf (newline_dropLast hl).2 (by simpa using hr) b
      simp only [List.cons_append, strncasecmp, cAt_cons_zero, List.tail_cons, List.length_cons] at ih ⊢
      rw [ih]

theorem strtolBody_append {body : List Char} (h : '\n' ∈ body.tail) (b : List Char) :
    strtolBody (body ++ b) = strtolBody body := by
  obtain ⟨c, cs, rfl⟩ : ∃ c cs, body = c :: cs := List.exists_cons_of_ne_nil (by rintro rfl; simp at h)
  simp only [List.tail_cons] at h
  have hd : ∀ k ≤ 1, ((c :: cs ++ b).drop k).takeWhile Char.isDigit = ((c :: cs).drop k).takeWhile Char.isDigit := by
    intro k hk
    rw [List.drop_append_of_le_length (by simp; omega)]
    refine (takeWhile_append_of_neg ⟨'\n', ?_, rfl⟩ b).1
    rcases Nat.le_one_iff_eq_zero_or_eq_one.1 hk with rfl | rfl
    · exact List.mem_cons_of_mem _ h
    · exact h
  unfold strtolBody
  simp only [List.cons_append, List.head?_cons]
  rw [← List.cons_append, hd _ (by split_ifs <;> omega)]

theorem strtol_append_lf {b : List Char} (hb : strtol b = none) :
    ∀ {r : List Char}, r.getLast? = some '\n' → strtol (r ++ b) = strtol r
  | [], hr => by simp at hr
  | [c], hr => by
      obtain rfl : c = '\n' := by simpa using hr
      have hs : isspace '\n' = true := rfl
      rw [List.singleton_append, strtol_cons_space hs, strtol_cons_space hs, hb]
      rfl
  | c :: d :: cs, hr => by
      by_cases hc : isspace c = true
      · rw [List.cons_append, strtol_cons_space hc, strtol_cons_space hc, strtol_append_lf hb (by simpa using hr)]
      · have hn : '\n' ∈ (c :: d :: cs).tail := by
          rcases List.mem_cons.1 (List.mem_of_getLast?_eq_some hr) with h | h
          · subst h
            simp [isspace] at hc
          · exact h
        have hbody := strtolBody_append hn b
        rw [List.cons_append] at hbody ⊢
        simp only [strtol, List.takeWhile_cons_of_neg hc, List.dropWhile_cons_of_neg hc, hbody]

theorem untilNewline_append {r : List Char} (h : '\n' ∈ r) (b : List Char) :
    untilNewline (r ++ b) = untilNewline r := by
  induction r with
  | nil => exact absurd h (List.not_mem_nil _)
  | cons x xs ih =>
      by_cases hx : x = '\n'
      · simp [untilNewline, hx]
      · simp [untilNewline, hx, ih (by simpa [Ne.symm hx] using h)]

theorem matchQuotable_append_lf {bs : Bool} {r : List Char} (hr : r.getLast? = some '\n') (b : List Char)
    (hq : cAt r 0 = '"' → scanQuoted '"' r.tail < r.tail.length) :
    matchQuotable bs (r ++ b) 0 = matchQuotable bs r 0 := by
  obtain ⟨x, xs, rfl⟩ : ∃ x xs, r = x :: xs := List.exists_cons_of_ne_nil (by rintro rfl; simp at hr)
  unfold matchQuotable
  simp only [List.cons_append, cAt_cons_zero, List.tail_cons]
  split_ifs with hx
  · have hlt := hq hx
    have ht : (xs ++ b).take (scanQuoted '"' xs + 1) = xs.take (scanQuoted '"' xs + 1) :=
      List.take_append_of_le_length (by simp only [List.tail_cons] at hlt; omega)
    rw [scanQuoted_congr '"' xs (xs ++ b) ht.symm, finishMatch_congr _ _ ht]
  · have hP : (fun c => !if bs then endsLine c else endsWord c) '\n' = false := by cases bs <;> rfl
    obtain ⟨h1, h2⟩ := takeWhile_append_of_neg (P := fun c => !if bs then endsLine c else endsWord c)
      ⟨'\n', List.mem_of_getLast?_eq_some hr, hP⟩ b
    have hn : unquotedLength bs (x :: (xs ++ b)) = unquotedLength bs (x :: xs) := by
      simp only [unquotedLength, ← List.cons_append, h1]
    rw [hn, ← List.cons_append, finishMatch_congr _ _ (List.take_append_of_le_length (by
      simp only [unquotedLength]; omega))]

theorem tryToken_append_lf {r : List Char} (hr : r.getLast? = some '\n') (b : List Char) (hb : strtol b = none)
    {t : Token σ} (hlit : isLiteral t → '\n' ∉ (spelling t).dropLast)
    (hq : (t.name = "string" ∨ t.name = "word") → cAt r 0 = '"' →
      ∀ w' v nl, tryToken r t 0 = .taken w' v nl → w' < r.length) :
    tryToken (r ++ b) t 0 = tryToken r t 0 := by
  unfold tryToken
  simp only [List.drop_zero]
  by_cases hl : isLiteral t
  · simp only [if_pos hl, strncasecmp_append_lf (hlit hl) hr b]
  by_cases hn : t.name = "number"
  · simp only [if_neg hl, if_pos hn, matchNumber, strtol_append_lf hb hr]
  by_cases hs : t.name = "string" ∨ t.name = "word"
  · simp only [if_neg hl, if_neg hn, if_pos hs]
    refine matchQuotable_append_lf hr b fun hx => ?_
    obtain ⟨x, xs, rfl⟩ : ∃ x xs, r = x :: xs := List.exists_cons_of_ne_nil (by rintro rfl; simp at hr)
    simp only [cAt_cons_zero] at hx
    subst hx
    have hxs : xs ≠ [] := by rintro rfl; simp at hr
    have hle := scanQuoted_le '"' xs
    simp only [List.tail_cons]
    refine lt_of_le_of_ne hle fun he => ?_
    have h := hq hs rfl
    simp only [tryToken, if_neg hl, if_neg hn, if_pos hs, List.drop_zero, matchQuotable, cAt_cons_zero,
      if_true, List.tail_cons, finishMatch, he, cAt_of_length_le le_rfl, List.length_eq_zero, hxs] at h
    exact absurd (h _ _ _ rfl) (by simp; omega)
  simp only [if_neg hl, if_neg hn, if_neg hs]
  have hP : (fun c => !endsLine c) '\n' = false := rfl
  have hne : r ≠ [] := by rintro rfl; simp at hr
  obtain ⟨x, xs, rfl⟩ := List.exists_cons_of_ne_nil hne
  rw [(takeWhile_append_of_neg (P := fun c => !endsLine c) ⟨'\n', List.mem_of_getLast?_eq_some hr, hP⟩ b).1]
  rfl

section Prefix

variable {a b : List Char} (ha : a.getLast? = some '\n') (hb : strtol b = none)

include ha in
theorem succ_lt_of_quote {w : Nat} (hw : w < a.length) (hq : cAt a w = '"') : w + 1 < a.length := by
  by_contra h
  obtain rfl : w = a.length - 1 := by omega
  rw [cAt_last ha] at hq
  exact absurd hq (by decide)

include ha hb in
theorem tryToken_append {t : Token σ} {w : Nat} (hw : w < a.length) (hlit : isLiteral t → '\n' ∉ (spelling t).dropLast)
    (hq : (t.name = "string" ∨ t.name = "word") → cAt a w = '"' →
      ∀ w' v nl, tryToken a t w = .taken w' v nl → w' < a.length) :
    tryToken (a ++ b) t w = tryToken a t w := by
  have hd : (a ++ b).drop w = a.drop w ++ b := List.drop_append_of_le_length hw.le
  rw [← Nat.add_zero w, tryToken_add, tryToken_add, hd, tryToken_append_lf (getLast?_drop_lf ha hw) b hb hlit]
  intro hs hx w' v nl h
  have := hq hs (by rwa [cAt_drop, Nat.add_zero] at hx) (w + w') v nl (by rw [← Nat.add_zero w, tryToken_add, h]; rfl)
  simp only [List.length_drop]
  omega

include ha hb in
theorem matchTokens_append : ∀ {ts : List (Token σ)} {w : Nat}, w < a.length →
    (∀ t ∈ ts, isLiteral t → '\n' ∉ (spelling t).dropLast) →
    (∀ span ∈ (quotedMatch a ts w).toList, span.2 < a.length) →
    matchTokens (a ++ b) ts w = matchTokens a ts w ∧ ∀ w', matchTokens a ts w = .unmatched w' → w' < a.length
  | [], w, hw, _, _ => ⟨rfl, fun _ h => by cases h; exact hw⟩
  | t :: ts, w, hw, hl, hq => by
      have ht : tryToken (a ++ b) t w = tryToken a t w :=
        tryToken_append ha hb hw (hl t (List.mem_cons_self _ _)) fun hs hx w' v nl h =>
          hq (w, w') (by simp [quotedMatch, h, hs, hx])
      simp only [matchTokens, ht]
      cases htry : tryToken a t w with
      | taken w' v nl => exact ⟨rfl, fun _ h => nomatch h⟩
      | passed w' =>
          have hw' : w' < a.length := by
            rcases tryToken_passed htry with rfl | ⟨hx, rfl⟩
            · exact hw
            · exact succ_lt_of_quote ha hw hx
          exact matchTokens_append hw' (fun t ht => hl t (List.mem_cons_of_mem _ ht))
            fun span h => hq span (by simpa [quotedMatch, htry] using h)

end Prefix

theorem tryToken_at_end (s : List Char) {t : Token σ} (hne : isLiteral t → spelling t ≠ [])
    (hnul : '\x00' ∉ spelling t) :
    tryToken s t s.length = .passed s.length ∨ ∃ v nl, tryToken s t s.length = .taken (s.length + 1) v nl := by
  unfold tryToken
  rw [List.drop_length]
  by_cases hl : isLiteral t
  · obtain ⟨x, xs, hx⟩ := List.exists_cons_of_ne_nil (hne hl)
    have hf : strncasecmp [] (spelling t) (spelling t).length = false := by
      rw [hx, List.length_cons]
      exact Bool.eq_false_iff.2 fun h => List.cons_ne_nil x xs ((strncasecmp_nil_left (hx ▸ hnul)).1 h)
    simp [hl, hf]
  by_cases hn : t.name = "number"
  · exact .inl (by simp only [if_neg hl, if_pos hn]; rfl)
  by_cases hs : t.name = "string" ∨ t.name = "word"
  · exact .inl (by simp only [if_neg hl, if_neg hn, if_pos hs]; rfl)
  simp only [if_neg hl, if_neg hn, if_neg hs]
  split_ifs <;> simp

theorem matchTokens_at_end (s : List Char) :
    ∀ {ts : List (Token σ)}, (∀ t ∈ ts, (isLiteral t → spelling t ≠ []) ∧ '\x00' ∉ spelling t) →
      matchTokens s ts s.length = .unmatched s.length ∨
        ∃ t v nl, matchTokens s ts s.length = .matched t (s.length + 1) v nl
  | [], _ => .inl rfl
  | t :: ts, h => by
      have ht := h t (List.mem_cons_self _ _)
      simp only [matchTokens]
      rcases tryToken_at_end s ht.1 ht.2 with hp | ⟨v, nl, hp⟩ <;> rw [hp]
      · exact matchTokens_at_end s fun t' h' => h t' (List.mem_cons_of_mem _ h')
      · exact .inr ⟨t, v, nl, rfl⟩

section Runs

variable [DecidableEq σ] {g : Grammar σ} {S : CaptureStore κ}

theorem running_walk_le {n : Nat} {c c' : Config σ κ} (h : (run g S n c).final = .running c') :
    c.walk ≤ c.input.length := by
  by_contra hw
  cases n <;> simp [run, hw] at h

theorem final_of_invariant {P : Config σ κ → Prop}
    (hP : ∀ c c' ev, P c → c.walk ≤ c.input.length → step g S c = .next c' ev → P c') :
    ∀ (n : Nat) (c : Config σ κ), P c → ∀ {c'},
      ((run g S n c).final = .running c' ∨ (run g S n c).final = .done c') → P c'
  | 0, c, hc, c', h => by
      simp only [run] at h
      split_ifs at h <;> rcases h with h | h <;> cases h <;> exact hc
  | n + 1, c, hc, c', h => by
      simp only [run] at h
      split_ifs at h with hw
      · cases hs : step g S c with
        | next d ev =>
            rw [hs] at h
            exact final_of_invariant hP n d (hP c d ev hc hw hs) h
        | abort r ev => rw [hs] at h; rcases h with h | h <;> cases h
      · rcases h with h | h <;> cases h
        exact hc

theorem done_of_step : ∀ {n : Nat} {c c' : Config σ κ}, c.walk ≤ c.input.length →
    (run g S n c).final = .done c' → ∃ d ev, step g S d = .next c' ev
  | 0, c, c', hw, h => by simp [run, hw] at h
  | n + 1, c, c', hw, h => by
      simp only [run, if_pos hw] at h
      cases hs : step g S c with
      | next d ev =>
          rw [hs] at h
          by_cases hd : d.walk ≤ d.input.length
          · exact done_of_step hd h
          · obtain rfl : d = c' := by cases n <;> simpa [run, hd] using h
            exact ⟨c, ev, hs⟩
      | abort r ev => rw [hs] at h; cases h

theorem run_add_of_running : ∀ {n : Nat} {c c' : Config σ κ}, (run g S n c).final = .running c' → ∀ m,
    run g S (n + m) c = ⟨(run g S n c).events ++ (run g S m c').events, (run g S m c').final⟩
  | 0, c, c', h, m => by
      simp only [run] at h
      split_ifs at h
      cases h
      simp [run]
  | n + 1, c, c', h, m => by
      rw [Nat.add_right_comm]
      simp only [run] at h ⊢
      split_ifs at h ⊢ with hw
      cases hs : step g S c with
      | next d ev =>
          rw [hs] at h
          simp only [run_add_of_running h m, List.append_assoc]
      | abort r ev => rw [hs] at h; cases h

variable (hne : ∀ st, ∀ t ∈ g.tokens st, isLiteral t → spelling t ≠ [])

include hne in
theorem step_at_end {c c' : Config σ κ} {ev : List Event} (hw : c.walk = c.input.length)
    (h : step g S c = .next c' ev) : c'.walk = c.input.length + 1 := by
  have hts : tokenStart c = c.input.length := by simp [tokenStart, hw, skipWhitespace]
  have hnul : ∀ t ∈ g.tokens c.state, (isLiteral t → spelling t ≠ []) ∧ '\x00' ∉ spelling t :=
    fun t ht => ⟨hne _ t ht, fun hm => g.names_nul_free _ t ht (List.mem_of_mem_tail hm)⟩
  unfold step at h
  rw [hts] at h
  rcases matchTokens_at_end c.input hnul with hm | ⟨t, v, nl, hm⟩ <;> simp only [hm] at h
  · obtain ⟨t, -, -, rfl, -⟩ := recover_next g S h
    simp [skipLine, untilNewline]
  · obtain ⟨k, -, -, rfl, -⟩ := advance_next g S h
    rfl

include hne in
theorem run_running_at_end {n : Nat} {c c' : Config σ κ} (hw : c.walk = c.input.length)
    (h : (run g S n c).final = .running c') : n = 0 := by
  cases n with
  | zero => rfl
  | succ n =>
      simp only [run, if_pos hw.le] at h
      cases hs : step g S c with
      | next d ev =>
          rw [hs] at h
          have h1 := step_at_end hne hw hs
          have h2 := running_walk_le h
          rw [(step_cases hs).1] at h2
          omega
      | abort r ev => rw [hs] at h; cases h

end Runs

section Suffix

variable {a : List Char} (ha : a.getLast? = some '\n')

include ha in
theorem startOfLine_shift (s : List Char) : ∀ w, startOfLine (a ++ s) (a.length + w) = a.length + startOfLine s w
  | 0 => by
      obtain ⟨k, hk⟩ : ∃ k, a.length = k + 1 := ⟨a.length - 1, by
        have := List.length_pos.2 (fun h : a = [] => by simp [h] at ha); omega⟩
      have hlast : isLineEnd (cAt (a ++ s) k) = true := by
        have hk' : cAt (a ++ s) k = cAt a k := by
          simp only [cAt, List.getD_eq_getElem?_getD, List.getElem?_append_left (show k < a.length by omega)]
        have := cAt_last ha
        rw [hk, Nat.add_sub_cancel] at this
        rw [hk', this]
        rfl
      have hs : cAt (a ++ s) (k + 1) = cAt s 0 := by
        rw [← hk, ← Nat.add_zero a.length, ← cAt_drop, List.drop_left]
      rw [Nat.add_zero, hk]
      simp only [startOfLine]
      rw [hs, startOfLine_of_lineEnd hlast]
      split_ifs <;> rfl
  | w + 1 => by
      have hs : cAt (a ++ s) (a.length + (w + 1)) = cAt s (w + 1) := by rw [← cAt_drop, List.drop_left]
      rw [← Nat.add_assoc, startOfLine, Nat.add_assoc, hs, startOfLine, startOfLine_shift s w]
      split_ifs <;> omega

theorem underline_shift (q walk : Nat) : ∀ (i : Nat) (r : List Char),
    underline (q + walk) (q + i) r = underline walk i r
  | _, [] => rfl
  | i, c :: cs => by
      simp only [underline, Nat.add_le_add_iff_left, Nat.add_assoc, underline_shift q walk (i + 1) cs]

include ha in
theorem errorPosition_shift (s : List Char) (w : Nat) :
    errorPosition (a ++ s) (a.length + w) = errorPosition s w := by
  simp only [errorPosition, startOfLine_shift ha, List.drop_append, underline_shift]

theorem relocate_nextState [DecidableEq σ] {g : Grammar σ} {S : CaptureStore κ} (t : Token σ) (G : Globals σ κ) (d : Nat) :
    (nextState g S t G).2.map (relocate a d) = (nextState g S t G).2 := by
  unfold nextState; split_ifs <;> rfl

end Suffix

section Loop

variable [DecidableEq σ] (g : Grammar σ) (S : CaptureStore κ) {b : List Char} (hb : strtol b = none)

include hb in
theorem step_widen {c : Config σ κ} (ha : c.input.getLast? = some '\n') (hw : c.walk < c.input.length)
    (hlit : ∀ t ∈ g.tokens c.state, isLiteral t → '\n' ∉ (spelling t).dropLast)
    (hq : ∀ span ∈ (quotedMatch c.input (g.tokens c.state) (tokenStart c)).toList, span.2 < c.input.length) :
    StepWidens b (step g S (widen b c)) (step g S c) := by
  have hr := getLast?_drop_lf ha hw
  obtain ⟨hsk, hlt⟩ := takeWhile_append_of_neg (P := fun c => c = ' ' || c = '\t')
    ⟨'\n', List.mem_of_getLast?_eq_some hr, rfl⟩ b
  have hts : tokenStart (widen b c) = tokenStart c := by
    simp only [tokenStart, widen, skipWhitespace, List.drop_append_of_le_length hw.le, hsk]
  have htlt : tokenStart c < c.input.length := by
    simp only [tokenStart, skipWhitespace, List.length_drop] at hlt ⊢
    omega
  obtain ⟨hm, hun⟩ := matchTokens_append ha hb htlt hlit hq
  unfold step
  rw [hts, show (widen b c).input = c.input ++ b from rfl, show (widen b c).state = c.state from rfl, hm]
  cases hmt : matchTokens c.input (g.tokens c.state) (tokenStart c) with
  | matched t w v nl =>
      have hG : (widen b c).toGlobals = c.toGlobals := rfl
      simp only [advance, hG]
      cases capture S t v c.stack with
      | error r => exact ⟨rfl, rfl⟩
      | ok k =>
          dsimp only
          split_ifs <;> exact ⟨rfl, rfl⟩
  | unmatched w =>
      have hsl : skipLine (c.input ++ b) w = skipLine c.input w := by
        have hw' := hun w hmt
        simp only [skipLine, List.drop_append_of_le_length hw'.le,
          untilNewline_append (List.mem_of_getLast?_eq_some (getLast?_drop_lf ha hw')) b]
      have hG : (widen b c).toGlobals = c.toGlobals := rfl
      simp only [recover, hG]
      cases findErrorToken g c.statelist with
      | none => exact ⟨rfl, rfl⟩
      | some t =>
          dsimp only
          split_ifs
          · exact ⟨rfl, rfl⟩
          · exact ⟨by simp only [widen, hsl], rfl⟩

include hb in
theorem run_widen (hne : ∀ st, ∀ t ∈ g.tokens st, isLiteral t → spelling t ≠ [])
    (hlit : ∀ st, ∀ t ∈ g.tokens st, isLiteral t → '\n' ∉ (spelling t).dropLast)
    {a : List Char} (ha : a.getLast? = some '\n') :
    ∀ (n : Nat) (c : Config σ κ), c.input = a → c.walk < a.length →
      (∀ span ∈ quotedSpans g S n c, span.2 < a.length) → ∀ {c'}, (run g S n c).final = .running c' →
        (run g S n (widen b c)).events.map logEntry = (run g S n c).events.map logEntry ∧
          (run g S n (widen b c)).final = .running (widen b c')
  | 0, c, hin, hw, _, c', h => by
      subst hin
      simp only [run, if_pos hw.le] at h
      cases h
      simp only [run, if_pos (widen_walk_le hw.le), and_self]
  | n + 1, c, hin, hw, hq, c', h => by
      subst hin
      rw [quotedSpans, if_pos hw.le] at hq
      have hs := step_widen g S hb ha hw (hlit c.state) fun span h => hq span (List.mem_append_left _ h)
      simp only [run, if_pos hw.le, if_pos (widen_walk_le hw.le)] at h ⊢
      rcases hst : step g S c with ⟨d, ev⟩ | ⟨r, ev⟩ <;>
        rcases hst' : step g S (widen b c) with ⟨d', ev'⟩ | ⟨r', ev'⟩ <;>
        rw [hst, hst'] at hs <;> simp only [StepWidens] at hs <;> rw [hst] at h
      · obtain ⟨rfl, hev⟩ := hs
        have hdin : d.input = c.input := (step_cases hst).1
        rcases lt_or_ge d.walk c.input.length with hd | hd
        · obtain ⟨ih1, ih2⟩ := run_widen hne hlit ha n d hdin hd
            (fun span h' => hq span (List.mem_append_right _ (by simpa only [hst] using h'))) h
          simp only [List.map_append, hev, ih1, ih2, and_true]
        · have hdw := running_walk_le h
          obtain rfl := run_running_at_end hne (le_antisymm hdw (hdin ▸ hd)) h
          simp only [run, if_pos hdw] at h
          cases h
          simp only [run, if_pos (widen_walk_le hdw), List.map_append, hev, and_self]
      · cases h

theorem step_shift {a : List Char} (ha : a.getLast? = some '\n') (d : Nat) (c : Config σ κ) :
    step g S (shiftConfig a d c) = match step g S c with
      | .next c' ev => .next (shiftConfig a d c') (ev.map (relocate a d))
      | .abort r ev => .abort r (ev.map (relocate a d)) := by
  have hts : tokenStart (shiftConfig a d c) = a.length + tokenStart c := by
    simp only [tokenStart, shiftConfig, List.drop_append, Nat.add_assoc]
  have hm : matchTokens (a ++ c.input) (g.tokens c.state) (a.length + tokenStart c) =
      shiftAttempt a.length (matchTokens c.input (g.tokens c.state) (tokenStart c)) := by
    rw [matchTokens_add, List.drop_left]
  unfold step
  rw [hts, show (shiftConfig a d c).input = a ++ c.input from rfl,
    show (shiftConfig a d c).state = c.state from rfl, hm]
  cases matchTokens c.input (g.tokens c.state) (tokenStart c) with
  | matched t w v nl =>
      have hG : (shiftConfig a d c).toGlobals = c.toGlobals := rfl
      simp only [shiftAttempt, advance, hG]
      cases capture S t v c.stack with
      | error r => rfl
      | ok k =>
          dsimp only
          split_ifs <;> simp only [relocate_nextState] <;> rfl
  | unmatched w =>
      have hrec : errorRecord (shiftConfig a d c).input (g.tokens c.state) (a.length + w) =
          { errorRecord c.input (g.tokens c.state) w with input := a ++ c.input } := by
        simp only [shiftConfig, errorRecord, errorPosition_shift ha]
      have hsl : skipLine (shiftConfig a d c).input (a.length + w) = a.length + skipLine c.input w := by
        simp only [shiftConfig, skipLine, List.drop_append, Nat.add_assoc]
      have hG : (shiftConfig a d c).toGlobals = c.toGlobals := rfl
      simp only [shiftAttempt, recover, hG, hrec]
      cases findErrorToken g c.statelist with
      | none => rfl
      | some t =>
          dsimp only
          split_ifs <;> simp only [List.map_cons, relocate_nextState, hsl] <;> rfl

theorem run_shift {a : List Char} (ha : a.getLast? = some '\n') (d : Nat) :
    ∀ (m : Nat) (c : Config σ κ), run g S m (shiftConfig a d c) =
      ⟨(run g S m c).events.map (relocate a d), relocateFinal a d (run g S m c).final⟩
  | 0, c => by
      simp only [run, shiftConfig, List.length_append, Nat.add_le_add_iff_left]
      split_ifs <;> rfl
  | m + 1, c => by
      have hg : (shiftConfig a d c).walk ≤ (shiftConfig a d c).input.length ↔ c.walk ≤ c.input.length := by
        simp only [shiftConfig, List.length_append, Nat.add_le_add_iff_left]
      simp only [run, hg, step_shift g S ha]
      split_ifs
      · cases step g S c with
        | next c' ev => simp only [run_shift ha d m c', List.map_append]
        | abort r ev => rfl
      · rfl

end Loop

theorem statelist_of_initial {g : Grammar σ} {c : Config σ κ} (h : TrailOk g c) (hs : c.state = g.INITIAL) :
    c.statelist = [g.INITIAL] := by
  obtain ⟨hh, hn, hl, -⟩ := h
  rw [hs] at hl
  rcases hc : c.statelist with _ | ⟨x, _ | ⟨y, rest⟩⟩ <;> rw [hc] at hh hl hn
  · cases hh
  · simpa using hh
  · obtain rfl : x = g.INITIAL := by simpa using hh
    exact absurd (List.mem_of_getLast?_eq_some (by simpa using hl)) (List.nodup_cons.1 hn).1

section Lines

variable [DecidableEq σ] (g : Grammar σ) (S : CaptureStore κ)

/-- `parse_config` reads a file line by line: when the parse of `a`, which
ends with a line feed, comes back to `INITIAL` just past that line feed and
took no quoted form across it, the parse of `a ++ b` logs what the parse of `a`
logged up to there and then what a fresh parse of `b` from the same static
variables logs, with the cursors moved past `a` and the line numbers moved on,
and it ends where that parse of `b` ends. This holds for grammars whose
literals have a first byte and no line feed before their last byte, and for
every `b` that does not start with a number, which the `number` descriptor's
`strtol` would read across the line feed. -/
theorem parse_config_append
    (hne : ∀ st, ∀ t ∈ g.tokens st, isLiteral t → spelling t ≠ [])
    (hlit : ∀ st, ∀ t ∈ g.tokens st, isLiteral t → '\n' ∉ (spelling t).dropLast)
    {G : Globals σ κ} (hG : G.statelist.head? = some g.INITIAL)
    {a b : List Char} (ha : a.getLast? = some '\n') (hb : strtol b = none)
    {n : Nat} {c : Config σ κ} (hc : (run g S n (begin g G a)).final = .running c)
    (hw : c.walk = a.length) (hst : c.state = g.INITIAL)
    (hq : ∀ span ∈ quotedSpans g S n (begin g G a), span.2 < a.length) (m : Nat) :
    (run g S (n + m) (begin g G (a ++ b))).events.map logEntry =
        (run g S n (begin g G a)).events.map logEntry ++
          (run g S m (begin g c.toGlobals b)).events.map (logEntry ∘ relocate a (c.linecnt - 1)) ∧
      (run g S (n + m) (begin g G (a ++ b))).final =
        relocateFinal a (c.linecnt - 1) (run g S m (begin g c.toGlobals b)).final := by
  have hin : c.input = a :=
    final_of_invariant (P := fun c => c.input = a) (fun _ _ _ h _ hs => (step_cases hs).1.trans h) n _ rfl (.inl hc)
  have htrail : TrailOk g c :=
    final_of_invariant (fun _ _ _ h _ hs => trailOk_step h hs) n _ (trailOk_begin hG a) (.inl hc)
  have hl : 1 ≤ c.linecnt :=
    final_of_invariant (P := fun c => 1 ≤ c.linecnt)
      (fun _ _ _ h hw hs => by rcases (step_lines hw hs).2.2 with h' | h' <;> omega) n _ le_rfl (.inl hc)
  obtain ⟨he, hf⟩ := run_widen g S hb hne hlit ha n (begin g G a) rfl
    (List.length_pos.2 fun h => by simp [h] at ha) hq hc
  have hmid : widen b c = shiftConfig a (c.linecnt - 1) (begin g c.toGlobals b) := by
    have hsl := statelist_of_initial htrail hst
    obtain ⟨⟨st, l, k⟩, s, w, lc⟩ := c
    simp only at hin hw hst hsl hl
    subst hin hw hst hsl
    simp only [widen, shiftConfig, begin, List.take_succ_cons, List.take_zero, Nat.add_zero,
      Nat.sub_add_cancel hl]
  rw [show begin g G (a ++ b) = widen b (begin g G a) from rfl, run_add_of_running hf, hmid, run_shift g S ha]
  exact ⟨by simp only [List.map_append, he, List.map_map], rfl⟩

theorem parse_config_append_workspace :
    (run workspaceGrammar stackStore (3 + 5) (begin workspaceGrammar (initGlobals workspaceGrammar stackStore)
        ("workspace 5\n".toList ++ "workspace 6\n".toList))).events.map logEntry =
        (run workspaceGrammar stackStore 3 (begin workspaceGrammar (initGlobals workspaceGrammar stackStore)
          "workspace 5\n".toList)).events.map logEntry ++
          (run workspaceGrammar stackStore 5 (begin workspaceGrammar (initGlobals workspaceGrammar stackStore)
            "workspace 6\n".toList)).events.map (logEntry ∘ relocate "workspace 5\n".toList 1) ∧
      (run workspaceGrammar stackStore (3 + 5) (begin workspaceGrammar (initGlobals workspaceGrammar stackStore)
        ("workspace 5\n".toList ++ "workspace 6\n".toList))).final =
        relocateFinal "workspace 5\n".toList 1 (run workspaceGrammar stackStore 5
          (begin workspaceGrammar (initGlobals workspaceGrammar stackStore) "workspace 6\n".toList)).final :=
  parse_config_append workspaceGrammar stackStore (G := initGlobals workspaceGrammar stackStore)
    (a := "workspace 5\n".toList) (b := "workspace 6\n".toList) (n := 3)
    (c := ⟨initGlobals workspaceGrammar stackStore, "workspace 5\n".toList, 12, 2⟩)
    (by decide) (by decide) rfl rfl (by decide) (by rfl) rfl rfl
    (fun span h => by
      rw [show quotedSpans workspaceGrammar stackStore 3 (begin workspaceGrammar
        (initGlobals workspaceGrammar stackStore) "workspace 5\n".toList) = [] from rfl] at h
      cases h) 5

/-- A parse that returns in `INITIAL` leaves nothing behind: its last
transition emptied the stack and cut the trail back to `INITIAL`, so every later
`parse_config` runs as the first parse of the process. -/
theorem parse_config_restart_initial {G : Globals σ Stack} (hG : G.statelist.head? = some g.INITIAL)
    {a : List Char} {n : Nat} {c : Config σ Stack} (h : (run g stackStore n (begin g G a)).final = .done c)
    (hst : c.state = g.INITIAL) (b : List Char) (m : Nat) :
    run g stackStore m (begin g c.toGlobals b) = run g stackStore m (begin g (initGlobals g stackStore) b) := by
  have htrail : TrailOk g c :=
    final_of_invariant (fun _ _ _ h _ hs => trailOk_step h hs) n _ (trailOk_begin hG a) (.inr h)
  obtain ⟨d, ev, hs⟩ := done_of_step (Nat.zero_le _) h
  rw [begin_of_empty htrail (step_clears g hs (.inr (.inl hst)))]

theorem parse_config_restart_initial_workspace :
    run workspaceGrammar stackStore 8 (begin workspaceGrammar
        (⟨initGlobals workspaceGrammar stackStore, "workspace 5\n".toList, 13, 3⟩ : Config (Fin 3) Stack).toGlobals
        "workspace 6\n".toList) =
      run workspaceGrammar stackStore 8 (begin workspaceGrammar (initGlobals workspaceGrammar stackStore)
        "workspace 6\n".toList) :=
  parse_config_restart_initial workspaceGrammar (G := initGlobals workspaceGrammar stackStore)
    (a := "workspace 5\n".toList) (n := 8) rfl (by rfl) rfl _ _

end Lines

end I3Config.Composition

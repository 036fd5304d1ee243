import I3Config.Recognizers

namespace I3Config.Blanks

open CString ValueStack Tables Lexer Recognizers

variable {σ : Type} (ins : Nat → List Char)

/-- The input with the run `ins (j + 1)` of blanks inserted after the line
feed at offset `j`; the offsets count from `p`. -/
def insertBlanks : Nat → List Char → List Char
  | _, [] => []
  | p, c :: cs => c :: ((if c = '\n' then ins (p + 1) else []) ++ insertBlanks (p + 1) cs)

/-- The input with `ins 0` inserted at its start and `ins (j + 1)` after the
line feed at offset `j`. -/
def indentBy (s : List Char) : List Char := ins 0 ++ insertBlanks ins 0 s

def Blank (l : List Char) : Prop := ∀ c ∈ l, c = ' ' ∨ c = '\t'

@[simp] theorem insertBlanks_nil (p : Nat) : insertBlanks ins p [] = [] := rfl

theorem insertBlanks_cons_of_ne {c : Char} (hc : c ≠ '\n') (p : Nat) (cs : List Char) :
    insertBlanks ins p (c :: cs) = c :: insertBlanks ins (p + 1) cs := by
  simp [insertBlanks, hc]

theorem insertBlanks_append (a : List Char) : ∀ (p : Nat) (b : List Char),
    insertBlanks ins p (a ++ b) = insertBlanks ins p a ++ insertBlanks ins (p + a.length) b := by
  induction a with
  | nil => simp
  | cons c a ih =>
      intro p b
      rw [List.cons_append]
      simp only [insertBlanks, ih, List.cons_append, List.append_assoc, List.length_cons]
      rw [show p + 1 + a.length = p + (a.length + 1) by omega]

theorem insertBlanks_of_not_mem {a : List Char} (ha : '\n' ∉ a) (p : Nat) : insertBlanks ins p a = a := by
  induction a generalizing p with
  | nil => rfl
  | cons c a ih =>
      simp only [List.mem_cons, not_or] at ha
      rw [insertBlanks_cons_of_ne ins (Ne.symm ha.1), ih ha.2]

theorem insertBlanks_append_of_not_mem {a : List Char} (ha : '\n' ∉ a) (p : Nat) (b : List Char) :
    insertBlanks ins p (a ++ b) = a ++ insertBlanks ins (p + a.length) b := by
  rw [insertBlanks_append, insertBlanks_of_not_mem ins ha]

@[simp] theorem cAt_insertBlanks_zero (p : Nat) (r : List Char) : cAt (insertBlanks ins p r) 0 = cAt r 0 := by
  cases r <;> rfl

theorem insertBlanks_takeWhile {P : Char → Bool} (hP : P '\n' = false) (p : Nat) (r : List Char) :
    insertBlanks ins p r = r.takeWhile P ++ insertBlanks ins (p + (r.takeWhile P).length) (r.dropWhile P) := by
  have ha : '\n' ∉ r.takeWhile P := fun h => by simpa [hP] using List.mem_takeWhile_imp h
  rw [← insertBlanks_append_of_not_mem ins ha, List.takeWhile_append_dropWhile]

theorem takeWhile_insertBlanks {P : Char → Bool} (hP : P '\n' = false) (p : Nat) (r : List Char) :
    (insertBlanks ins p r).takeWhile P = r.takeWhile P := by
  rw [insertBlanks_takeWhile ins hP, List.takeWhile_append_of_pos (fun _ h => List.mem_takeWhile_imp h)]
  cases hd : r.dropWhile P with
  | nil => simp
  | cons c cs =>
      have hc : P c = false := by
        simpa [hd] using List.head_dropWhile_not P r (by simp [hd])
      by_cases hl : c = '\n' <;> simp [insertBlanks, hl, hc, hP]

theorem drop_insertBlanks {r : List Char} {k : Nat} (h : '\n' ∉ r.take k) (p : Nat) :
    (insertBlanks ins p r).drop k = insertBlanks ins (p + k) (r.drop k) := by
  conv_lhs => rw [← List.take_append_drop k r, insertBlanks_append_of_not_mem ins h]
  rcases Nat.lt_or_ge r.length k with hk | hk
  · simp [List.take_of_length_le hk.le, List.drop_of_length_le hk.le, List.drop_eq_nil_of_le hk.le]
  · rw [List.drop_left' (by simp [hk]), List.length_take, min_eq_left hk]

theorem drop_one_insertBlanks (p : Nat) (r : List Char) :
    (insertBlanks ins p r).drop 1 =
      (if cAt r 0 = '\n' then ins (p + 1) else []) ++ insertBlanks ins (p + 1) (r.drop 1) := by
  cases r <;> simp [insertBlanks]

def NoInsert (p : Nat) (r : List Char) (n : Nat) : Prop := ∀ j < n, cAt r j = '\n' → ins (p + j + 1) = []

theorem insertBlanks_of_noInsert : ∀ {p : Nat} {r : List Char} {n : Nat}, NoInsert ins p r n →
    insertBlanks ins p r = r.take n ++ insertBlanks ins (p + n) (r.drop n)
  | _, [], _, _ => by simp
  | p, _ :: _, 0, _ => by simp
  | p, c :: cs, n + 1, h => by
      have ih := insertBlanks_of_noInsert (p := p + 1) (r := cs) (n := n)
        fun j hj hc => by simpa [Nat.add_assoc, Nat.add_comm 1] using h (j + 1) (by omega) hc
      have hgap : (if c = '\n' then ins (p + 1) else []) = [] := by
        split_ifs with hc
        · exact h 0 (by omega) (by simpa using hc)
        · rfl
      simp only [insertBlanks, hgap, List.nil_append, ih, List.take_succ_cons, List.drop_succ_cons,
        List.cons_append]
      rw [Nat.add_assoc, Nat.add_comm 1]

variable {ins}

theorem takeWhile_insertBlanks_of_blank (hins : ∀ j, Blank (ins j)) {P : Char → Bool} (hP : P '\n' = true)
    (hs : P ' ' = true) (ht : P '\t' = true) :
    ∀ (p : Nat) (r : List Char),
      (insertBlanks ins p r).takeWhile P = insertBlanks ins p (r.takeWhile P) ∧
        (insertBlanks ins p r).dropWhile P = insertBlanks ins (p + (r.takeWhile P).length) (r.dropWhile P)
  | _, [] => by simp
  | p, c :: cs => by
      obtain ⟨ih1, ih2⟩ := takeWhile_insertBlanks_of_blank hins hP hs ht (p + 1) cs
      by_cases hc : P c = true
      · have hgap : ∀ x ∈ (if c = '\n' then ins (p + 1) else []), P x = true := by
          split_ifs
          · intro x hx; rcases hins _ x hx with rfl | rfl <;> assumption
          · simp
        simp only [insertBlanks, List.takeWhile_cons_of_pos hc, List.dropWhile_cons_of_pos hc,
          List.takeWhile_append_of_pos hgap, List.dropWhile_append_of_pos hgap, ih1, ih2,
          List.length_cons]
        rw [Nat.add_assoc, Nat.add_comm 1]
        exact ⟨trivial, rfl⟩
      · have hne : c ≠ '\n' := fun h => hc (h ▸ hP)
        simp [insertBlanks, hne, hc]

theorem scanQuoted_congr : ∀ (prev : Char) (x y : List Char),
    x.take (scanQuoted prev x + 1) = y.take (scanQuoted prev x + 1) → scanQuoted prev y = scanQuoted prev x
  | _, [], y, h => by cases y <;> simp_all [scanQuoted]
  | prev, c :: cs, y, h => by
      rcases y with _ | ⟨d, ds⟩
      · simp at h
      · simp only [List.take_succ_cons, List.cons.injEq] at h
        obtain ⟨rfl, h⟩ := h
        unfold scanQuoted at h ⊢
        split_ifs at h ⊢ with hc
        · rfl
        · rw [scanQuoted_congr c cs ds (by simpa using h)]

theorem unescape_congr : ∀ (n : Nat) (x y : List Char), x.take (n + 1) = y.take (n + 1) →
    unescape n x = unescape n y
  | 0, _, _, _ => by simp [unescape]
  | n + 1, [], y, h => by cases y <;> simp_all
  | n + 1, c :: cs, y, h => by
      rcases y with _ | ⟨d, ds⟩
      · simp at h
      simp only [List.take_succ_cons, List.cons.injEq] at h
      obtain ⟨rfl, h⟩ := h
      by_cases hp : c = '\\' ∧ cs.head? = some '"'
      · obtain ⟨rfl, hq⟩ := hp
        obtain ⟨cs, rfl⟩ : ∃ t, cs = '"' :: t := by
          cases cs <;> simp_all
        obtain ⟨ds, rfl⟩ : ∃ t, ds = '"' :: t := by
          rcases ds with _ | ⟨e, ds⟩
          · simp at h
          · simp only [List.take_succ_cons, List.cons.injEq] at h
            exact ⟨ds, by rw [← h.1]⟩
        cases n with
        | zero => rfl
        | succ n =>
            simp only [List.take_succ_cons, List.cons.injEq, true_and] at h
            rw [unescape_pair, unescape_pair, unescape_congr n cs ds h]
      · have hq : ¬(c = '\\' ∧ ds.head? = some '"') := by
          rintro ⟨rfl, hd⟩
          cases ds <;> cases cs <;> simp_all
        rw [unescape_cons n hp, unescape_cons n hq, unescape_congr n cs ds h]
termination_by n => n

theorem newline_dropLast {a : Char} {l : List Char} (hl : '\n' ∉ (a :: l).dropLast) :
    (a = '\n' → l = []) ∧ '\n' ∉ l.dropLast := by
  cases l with
  | nil => simp
  | cons b l =>
      simp only [List.dropLast_cons₂, List.mem_cons, not_or] at hl
      exact ⟨fun ha => absurd ha.symm hl.1, hl.2⟩

theorem strncasecmp_insertBlanks : ∀ {l : List Char}, '\n' ∉ l.dropLast → ∀ (p : Nat) (r : List Char),
    strncasecmp (insertBlanks ins p r) l l.length = strncasecmp r l l.length
  | [], _, _, _ => rfl
  | a :: l, hl, p, [] => rfl
  | a :: l, hl, p, c :: cs => by
      obtain ⟨hnil, hl'⟩ := newline_dropLast hl
      by_cases hc : c = '\n'
      · subst hc
        by_cases ha : a = '\n'
        · subst ha
          obtain rfl := hnil rfl
          simp [strncasecmp]
        · have hne : ¬('\n' = a.toLower) := fun h => ha (toLower_eq_of_lt h.symm (by decide))
          simp [strncasecmp, insertBlanks, hne]
      · simp only [strncasecmp, insertBlanks_cons_of_ne ins hc, cAt_cons_zero, List.tail_cons, List.length_cons,
          strncasecmp_insertBlanks hl' (p + 1) cs]

theorem insertBlanks_literal (hins : ∀ j, Blank (ins j)) : ∀ {l : List Char}, '\n' ∉ l.dropLast → '\x00' ∉ l →
    ∀ {p : Nat} {r : List Char}, strncasecmp r l l.length = true →
      ∃ pre, Blank pre ∧ (insertBlanks ins p r).drop l.length = pre ++ insertBlanks ins (p + l.length) (r.drop l.length)
  | [], _, _, p, r, _ => ⟨[], by simp [Blank]⟩
  | a :: l, hl, hn, p, [], h => by
      simp only [strncasecmp, cAt_nil, cAt_cons_zero, Bool.and_eq_true, decide_eq_true_eq] at h
      exact absurd (toLower_eq_nul h.1.symm) (fun h' => hn (h' ▸ List.mem_cons_self _ _))
  | a :: l, hl, hn, p, c :: cs, h => by
      simp only [strncasecmp, cAt_cons_zero, List.tail_cons, Bool.and_eq_true, decide_eq_true_eq,
        Bool.or_eq_true] at h
      have hc0 : c ≠ '\x00' := fun hc => hn (by
        rw [hc] at h
        exact toLower_eq_nul h.1.symm ▸ List.mem_cons_self _ _)
      have hrest := h.2.resolve_left (by simpa using hc0)
      obtain ⟨hnil, hl'⟩ := newline_dropLast hl
      by_cases hc : c = '\n'
      · subst hc
        obtain rfl : a = '\n' := toLower_eq_of_lt h.1.symm (by decide)
        obtain rfl := hnil rfl
        exact ⟨ins (p + 1), hins _, by simp [insertBlanks]⟩
      · obtain ⟨pre, hpre, hd⟩ := insertBlanks_literal hins hl' (fun h => hn (List.mem_cons_of_mem _ h)) hrest
          (p := p + 1)
        refine ⟨pre, hpre, ?_⟩
        rw [insertBlanks_cons_of_ne ins hc, List.length_cons, List.drop_succ_cons, hd, List.drop_succ_cons,
          Nat.add_assoc, Nat.add_comm 1]

theorem length_le_insertBlanks (p : Nat) (r : List Char) : r.length ≤ (insertBlanks ins p r).length := by
  induction r generalizing p with
  | nil => simp
  | cons c cs ih => have := ih (p + 1); simp only [insertBlanks, List.length_cons, List.length_append]; omega

theorem head?_insertBlanks (p : Nat) (r : List Char) : (insertBlanks ins p r).head? = r.head? := by
  cases r <;> rfl

theorem strtolBody_sign_ne {b : List Char} (hs : b.head? = some '-' ∨ b.head? = some '+') : cAt b 0 ≠ '\n' := by
  rcases b with _ | ⟨c, b⟩ <;> rcases hs with h | h <;> simp_all

theorem strtolBody_take {b : List Char} {m : Nat} {v : Int} (h : strtolBody b = some (m, v)) :
    '\n' ∉ b.take m := by
  simp only [strtolBody] at h
  have hsign : '\n' ∉ b.take (if b.head? = some '-' ∨ b.head? = some '+' then 1 else 0) := by
    split_ifs with hs
    · rcases b with _ | ⟨c, b⟩
      · simp at hs
      · simp only [List.head?_cons, Option.some.injEq] at hs
        rcases hs with rfl | rfl <;> simp
    · simp
  generalize (if b.head? = some '-' ∨ b.head? = some '+' then 1 else 0) = sign at h hsign
  generalize hd : (b.drop sign).takeWhile Char.isDigit = ds at h
  by_cases hds : ds = []
  · simp [hds] at h
  rw [if_neg hds] at h
  obtain ⟨rfl, -⟩ := Prod.mk.inj (Option.some.inj h)
  have hp : (b.drop sign).take ds.length = ds := by
    rw [← hd]; exact (List.prefix_iff_eq_take.1 (List.takeWhile_prefix _)).symm
  rw [List.take_add, hp, List.mem_append, not_or]
  exact ⟨hsign, fun hm => absurd (List.mem_takeWhile_imp (hd ▸ hm)) (by decide)⟩

theorem strtolBody_insertBlanks (q : Nat) (b : List Char) :
    strtolBody (insertBlanks ins q b) = strtolBody b := by
  have hdrop : ∀ sign, sign = (if b.head? = some '-' ∨ b.head? = some '+' then 1 else 0) →
      (insertBlanks ins q b).drop sign = insertBlanks ins (q + sign) (b.drop sign) := by
    rintro sign rfl
    split_ifs with hs
    · rw [drop_one_insertBlanks, if_neg (strtolBody_sign_ne hs), List.nil_append]
    · rfl
  simp only [strtolBody, head?_insertBlanks, hdrop _ rfl, takeWhile_insertBlanks ins (P := Char.isDigit) rfl]

theorem strtol_insertBlanks (hins : ∀ j, Blank (ins j)) (p : Nat) (r : List Char) :
    ∃ k, strtol (insertBlanks ins p r) = (strtol r).map (fun x => (x.1 + k, x.2)) ∧
      ∀ n v, strtol r = some (n, v) → (insertBlanks ins p r).drop (n + k) = insertBlanks ins (p + n) (r.drop n) := by
  obtain ⟨hT, hD⟩ := takeWhile_insertBlanks_of_blank hins (P := isspace) rfl rfl rfl p r
  have hle := @length_le_insertBlanks ins p (r.takeWhile isspace)
  refine ⟨(insertBlanks ins p (r.takeWhile isspace)).length - (r.takeWhile isspace).length, ?_, ?_⟩
  · simp only [strtol, hT, hD, strtolBody_insertBlanks, Option.map_map]
    congr 1; funext x; simp only [Function.comp_apply, Prod.mk.injEq, and_true]; omega
  · intro n v h
    obtain ⟨⟨m, v'⟩, hb, he⟩ := Option.map_eq_some'.1 h
    obtain ⟨rfl, -⟩ := Prod.mk.inj he
    have hr' : insertBlanks ins p r = insertBlanks ins p (r.takeWhile isspace) ++
        insertBlanks ins (p + (r.takeWhile isspace).length) (r.dropWhile isspace) := by
      rw [← hT, ← hD, List.takeWhile_append_dropWhile]
    have hr : r.drop ((r.takeWhile isspace).length + m) = (r.dropWhile isspace).drop m := by
      have := @List.drop_append _ (r.takeWhile isspace) (r.dropWhile isspace) m
      rwa [List.takeWhile_append_dropWhile] at this
    rw [hr', show (r.takeWhile isspace).length + m +
        ((insertBlanks ins p (r.takeWhile isspace)).length - (r.takeWhile isspace).length) =
        (insertBlanks ins p (r.takeWhile isspace)).length + m by omega,
      List.drop_append, drop_insertBlanks ins (strtolBody_take hb), hr, Nat.add_assoc]

variable (ins)

/-- After a step of `d` and `d'` bytes the two inputs again differ by blanks
only, and one is past its end exactly when the other is. -/
def Resumes (p : Nat) (r r' : List Char) (d d' : Nat) : Prop :=
  (d ≤ r.length ↔ d' ≤ r'.length) ∧ ∃ pre, Blank pre ∧ r'.drop d' = pre ++ insertBlanks ins (p + d) (r.drop d)

/-- A descriptor decides the same at an input and at the input with the
blanks, captures the same value, and leaves the two cursors where the inputs
again differ only by blanks. -/
def ResultAgrees (p : Nat) (r r' : List Char) : TokenResult → TokenResult → Prop
  | .passed d, .passed d' => d = d' ∧ r'.drop d = insertBlanks ins (p + d) (r.drop d)
  | .taken d v nl, .taken d' v' nl' => v = v' ∧ nl = nl' ∧ Resumes ins p r r' d d'
  | _, _ => False

variable {ins}

theorem resumes_aligned {p : Nat} {r : List Char} {d : Nat} (hd : d ≤ r.length) (h : '\n' ∉ r.take d) :
    Resumes ins p r (insertBlanks ins p r) d d :=
  ⟨⟨fun _ => hd.trans (length_le_insertBlanks p r), fun _ => hd⟩, [], by simp [Blank],
    drop_insertBlanks ins h p⟩

theorem insertBlanks_eq_nil {p : Nat} {r : List Char} : insertBlanks ins p r = [] ↔ r = [] := by
  cases r <;> simp [insertBlanks]

theorem resumes_line_end (hins : ∀ j, Blank (ins j)) {p : Nat} {r : List Char} {m : Nat}
    (hm : '\n' ∉ r.take m) : Resumes ins p r (insertBlanks ins p r) (m + 1) (m + 1) := by
  have hd := drop_insertBlanks ins hm p
  have hlen : (m + 1 ≤ r.length ↔ m + 1 ≤ (insertBlanks ins p r).length) := by
    refine ⟨fun h => h.trans (length_le_insertBlanks p r), fun h => ?_⟩
    have h1 : (insertBlanks ins p r).drop m ≠ [] := by rw [Ne, List.drop_eq_nil_iff]; omega
    rw [hd, Ne, insertBlanks_eq_nil, List.drop_eq_nil_iff] at h1
    omega
  refine ⟨hlen, if cAt r m = '\n' then ins (p + m + 1) else [], ?_, ?_⟩
  · split_ifs
    · exact hins _
    · simp [Blank]
  · rw [← List.drop_drop, hd, drop_one_insertBlanks, cAt_drop, Nat.add_zero, ← List.drop_drop,
      ← Nat.add_assoc]

theorem cAt_of_take_eq {l l' : List Char} {n : Nat} (h : l.take (n + 1) = l'.take (n + 1)) :
    cAt l n = cAt l' n := by
  have := congrArg (fun x : List Char => x[n]?) h
  simp only [List.getElem?_take_of_lt (Nat.lt_succ_self n)] at this
  simp only [cAt, List.getD_eq_getElem?_getD, this]

theorem finishMatch_congr (b n : Nat) {body body' : List Char} (h : body.take (n + 1) = body'.take (n + 1)) :
    finishMatch b n body = finishMatch b n body' := by
  simp only [finishMatch, unescape_congr n body body' h, cAt_of_take_eq h]

theorem take_one_insertBlanks (p : Nat) (r : List Char) : (insertBlanks ins p r).take 1 = r.take 1 := by
  cases r <;> rfl

theorem drop_insertBlanks_of_noInsert {p : Nat} {r : List Char} {n : Nat} (h : NoInsert ins p r n)
    (hn : n ≤ r.length) : (insertBlanks ins p r).drop n = insertBlanks ins (p + n) (r.drop n) := by
  rw [insertBlanks_of_noInsert ins h, List.drop_left' (by simp [hn])]

theorem quoted_agrees {p : Nat} {rt : List Char} (hN : NoInsert ins (p + 1) rt (scanQuoted '"' rt)) :
    ResultAgrees ins p ('"' :: rt) (insertBlanks ins p ('"' :: rt))
      (finishMatch 1 (scanQuoted '"' rt) rt) (finishMatch 1 (scanQuoted '"' (insertBlanks ins (p + 1) rt))
        (insertBlanks ins (p + 1) rt)) := by
  have hle := scanQuoted_le '"' rt
  have hsplit := insertBlanks_of_noInsert ins hN
  have htake : rt.take (scanQuoted '"' rt + 1) = (insertBlanks ins (p + 1) rt).take (scanQuoted '"' rt + 1) := by
    conv_lhs => rw [List.take_add]
    rw [hsplit, List.take_append_eq_append_take, List.take_take, List.length_take, min_eq_left hle,
      Nat.min_eq_right (Nat.le_succ _), Nat.add_sub_cancel_left, take_one_insertBlanks]
  rw [scanQuoted_congr '"' rt _ htake, ← finishMatch_congr 1 _ htake]
  have hd := drop_insertBlanks_of_noInsert hN hle
  have hL := @length_le_insertBlanks ins (p + 1) rt
  unfold finishMatch
  split_ifs with h0 hq
  · exact ⟨rfl, by simp [insertBlanks]⟩
  · have hlt := cAt_lt_length hq (by decide)
    refine ⟨rfl, rfl, iff_of_true (by simp; omega) (by simp [insertBlanks]; omega), [], by simp [Blank], ?_⟩
    simp only [insertBlanks, if_neg (show ('"' : Char) ≠ '\n' by decide), List.nil_append, List.length_cons]
    rw [show 1 + scanQuoted '"' rt + 1 = (scanQuoted '"' rt + 1) + 1 by omega, List.drop_succ_cons,
      ← List.drop_drop, hd, drop_one_insertBlanks, cAt_drop, Nat.add_zero, if_neg (by rw [hq]; decide),
      List.nil_append, List.drop_drop]
    congr 1; omega
  · refine ⟨rfl, rfl, iff_of_true (by simp; omega) (by simp [insertBlanks]; omega), [], by simp [Blank], ?_⟩
    simp only [insertBlanks, if_neg (show ('"' : Char) ≠ '\n' by decide), List.nil_append, Nat.add_zero]
    rw [show 1 + scanQuoted '"' rt = scanQuoted '"' rt + 1 by omega, List.drop_succ_cons, hd,
      List.drop_succ_cons]
    congr 1; omega

theorem not_mem_take_succ {r : List Char} {n : Nat} (h : '\n' ∉ r.take n) (hc : cAt r n ≠ '\n') :
    '\n' ∉ r.take (n + 1) := by
  rw [List.take_add, List.mem_append, not_or]
  refine ⟨h, fun hm => hc ?_⟩
  rcases hd : r.drop n with _ | ⟨c, t⟩
  · simp [hd] at hm
  · have : cAt r n = c := by rw [← Nat.add_zero n, ← cAt_drop, hd]; rfl
    simp only [hd, List.take_succ_cons, List.take_zero, List.mem_singleton] at hm
    rw [this, hm]

theorem not_mem_takeWhile {P : Char → Bool} (hP : P '\n' = false) (r : List Char) :
    '\n' ∉ r.take (r.takeWhile P).length := by
  rw [← List.prefix_iff_eq_take.1 (List.takeWhile_prefix P)]
  exact fun h => by simpa [hP] using List.mem_takeWhile_imp h

theorem take_succ_insertBlanks {r : List Char} {n : Nat} (h : '\n' ∉ r.take n) (hn : n ≤ r.length) (p : Nat) :
    (insertBlanks ins p r).take (n + 1) = r.take (n + 1) := by
  conv_lhs => rw [← List.take_append_drop n r, insertBlanks_append_of_not_mem ins h]
  rw [List.take_append_eq_append_take, List.take_of_length_le (by simp), List.length_take,
    min_eq_left hn, Nat.add_sub_cancel_left, take_one_insertBlanks, ← List.take_add]

theorem unquoted_agrees (b : Bool) {p : Nat} {r : List Char} :
    ResultAgrees ins p r (insertBlanks ins p r) (finishMatch 0 (unquotedLength b r) r)
      (finishMatch 0 (unquotedLength b (insertBlanks ins p r)) (insertBlanks ins p r)) := by
  have hP : (fun c => !if b then endsLine c else endsWord c) '\n' = false := by cases b <;> rfl
  have hn : unquotedLength b (insertBlanks ins p r) = unquotedLength b r := by
    simp only [unquotedLength, takeWhile_insertBlanks ins (P := fun c => !if b then endsLine c else endsWord c) hP]
  have hnl : '\n' ∉ r.take (unquotedLength b r) :=
    not_mem_takeWhile (P := fun c => !if b then endsLine c else endsWord c) hP r
  have hle : unquotedLength b r ≤ r.length := (List.takeWhile_sublist _).length_le
  rw [hn, ← finishMatch_congr 0 _ (take_succ_insertBlanks hnl hle p).symm]
  unfold finishMatch
  simp only [Nat.zero_add, Nat.add_zero]
  split_ifs with h0 hq
  · exact ⟨rfl, by simp⟩
  · have hlt := cAt_lt_length hq (by decide)
    exact ⟨rfl, rfl, resumes_aligned (by omega) (not_mem_take_succ hnl (by rw [hq]; decide))⟩
  · exact ⟨rfl, rfl, resumes_aligned (by omega) hnl⟩

theorem literal_agrees (hins : ∀ j, Blank (ins j)) {l : List Char} (hl : '\n' ∉ l.dropLast) (hnul : '\x00' ∉ l)
    (p : Nat) (r : List Char) :
    ResultAgrees ins p r (insertBlanks ins p r)
      (if strncasecmp r l l.length then .taken l.length (some (.str l)) false else .passed 0)
      (if strncasecmp (insertBlanks ins p r) l l.length then .taken l.length (some (.str l)) false
        else .passed 0) := by
  rw [strncasecmp_insertBlanks hl]
  split_ifs with hm
  · obtain ⟨pre, hpre, hd⟩ := insertBlanks_literal hins hl hnul hm (p := p)
    have hlen := strncasecmp_length_le hnul hm
    exact ⟨rfl, rfl, iff_of_true hlen (hlen.trans (length_le_insertBlanks p r)), pre, hpre, hd⟩
  · exact ⟨rfl, by simp⟩

theorem number_agrees (hins : ∀ j, Blank (ins j)) (p : Nat) (r : List Char) :
    ResultAgrees ins p r (insertBlanks ins p r)
      (match matchNumber r with
        | some (n, num) => .taken n (some (.long num)) false
        | none => .passed 0)
      (match matchNumber (insertBlanks ins p r) with
        | some (n, num) => .taken n (some (.long num)) false
        | none => .passed 0) := by
  obtain ⟨k, hk, hdrop⟩ := strtol_insertBlanks hins p r
  unfold matchNumber
  rw [hk]
  rcases hs : strtol r with _ | ⟨n, v⟩
  · exact ⟨rfl, by simp⟩
  · have hs' : strtol (insertBlanks ins p r) = some (n + k, v) := by rw [hk, hs]; rfl
    simp only [Option.map_some']
    split_ifs
    · exact ⟨rfl, rfl, iff_of_true (strtol_bounds hs).2 (strtol_bounds hs').2, [], by simp [Blank],
        by rw [hdrop n v hs, List.nil_append]⟩
    · exact ⟨rfl, by simp⟩

theorem tryToken_agrees (hins : ∀ j, Blank (ins j)) {t : Token σ}
    (hlit : isLiteral t → '\n' ∉ (spelling t).dropLast) (hnul : '\x00' ∉ spelling t) {p : Nat} {r : List Char}
    (hq : (t.name = "string" ∨ t.name = "word") → cAt r 0 = '"' → NoInsert ins (p + 1) r.tail (scanQuoted '"' r.tail)) :
    ResultAgrees ins p r (insertBlanks ins p r) (tryToken r t 0) (tryToken (insertBlanks ins p r) t 0) := by
  unfold tryToken
  simp only [List.drop_zero, Nat.zero_add]
  by_cases hl : isLiteral t
  · rw [if_pos hl, if_pos hl]
    exact literal_agrees hins (hlit hl) hnul p r
  rw [if_neg hl, if_neg hl]
  by_cases hn : t.name = "number"
  · rw [if_pos hn, if_pos hn]
    exact number_agrees hins p r
  rw [if_neg hn, if_neg hn]
  by_cases hsw : t.name = "string" ∨ t.name = "word"
  · rw [if_pos hsw, if_pos hsw]
    unfold matchQuotable
    rw [cAt_insertBlanks_zero]
    split_ifs with hc
    · rcases r with _ | ⟨c, rt⟩
      · simp at hc
      · obtain rfl : c = '"' := hc
        exact quoted_agrees (hq hsw rfl)
    · exact unquoted_agrees _
  rw [if_neg hsw, if_neg hsw]
  by_cases hline : t.name = "line"
  · rw [if_pos hline, if_pos hline, takeWhile_insertBlanks ins (P := fun c => !endsLine c) rfl]
    exact ⟨rfl, rfl, resumes_line_end hins (not_mem_takeWhile (P := fun c => !endsLine c) rfl r)⟩
  rw [if_neg hline, if_neg hline]
  by_cases hend : t.name = "end"
  · rw [if_pos hend, if_pos hend, cAt_insertBlanks_zero]
    split_ifs
    · exact ⟨rfl, rfl, resumes_line_end hins (m := 0) (by simp)⟩
    · exact ⟨rfl, by simp⟩
  rw [if_neg hend, if_neg hend]
  exact ⟨rfl, by simp⟩

def shiftResult (q : Nat) : TokenResult → TokenResult
  | .taken w v nl => .taken (q + w) v nl
  | .passed w => .passed (q + w)

def shiftAttempt (q : Nat) : Attempt σ → Attempt σ
  | .matched t w v nl => .matched t (q + w) v nl
  | .unmatched w => .unmatched (q + w)

theorem finishMatch_add (q b n : Nat) (body : List Char) :
    finishMatch (q + b) n body = shiftResult q (finishMatch b n body) := by
  unfold finishMatch; split_ifs <;> simp [shiftResult, Nat.add_assoc]

theorem tryToken_add (s : List Char) (t : Token σ) (q w : Nat) :
    tryToken s t (q + w) = shiftResult q (tryToken (s.drop q) t w) := by
  have hd : (s.drop q).drop w = s.drop (q + w) := by rw [List.drop_drop, Nat.add_comm]
  unfold tryToken
  rw [hd]
  by_cases hl : isLiteral t
  · simp only [if_pos hl]
    split <;> simp only [shiftResult, Nat.add_assoc]
  by_cases hn : t.name = "number"
  · simp only [if_neg hl, if_pos hn]
    split <;> simp only [shiftResult, Nat.add_assoc]
  by_cases hq : t.name = "string" ∨ t.name = "word"
  · simp only [if_neg hl, if_neg hn, if_pos hq, matchQuotable]
    split <;> simp only [← finishMatch_add, Nat.add_assoc]
  simp only [if_neg hl, if_neg hn, if_neg hq]
  by_cases hline : t.name = "line"
  · simp only [if_pos hline, shiftResult, Nat.add_assoc]
  by_cases hend : t.name = "end"
  · simp only [if_neg hline, if_pos hend]
    split <;> simp only [shiftResult, Nat.add_assoc]
  · simp only [if_neg hline, if_neg hend, shiftResult]

theorem matchTokens_add (s : List Char) (q : Nat) :
    ∀ (ts : List (Token σ)) (w : Nat), matchTokens s ts (q + w) = shiftAttempt q (matchTokens (s.drop q) ts w)
  | [], _ => rfl
  | t :: ts, w => by
      simp only [matchTokens, tryToken_add s t q w]
      cases tryToken (s.drop q) t w with
      | taken w' v nl => rfl
      | passed w' => exact matchTokens_add s q ts w'

/-- Where the descriptor loop takes a quoted `string` or `word`: the offset of
its opening quote and the offset after the match. -/
def quotedMatch (s : List Char) : List (Token σ) → Nat → Option (Nat × Nat)
  | [], _ => none
  | t :: ts, walk =>
      match tryToken s t walk with
      | .taken w' _ _ => if (t.name = "string" ∨ t.name = "word") ∧ cAt s walk = '"' then some (walk, w') else none
      | .passed w' => quotedMatch s ts w'

theorem quotedMatch_add (s : List Char) (q : Nat) :
    ∀ (ts : List (Token σ)) (w : Nat),
      quotedMatch s ts (q + w) = (quotedMatch (s.drop q) ts w).map fun x => (q + x.1, q + x.2)
  | [], _ => rfl
  | t :: ts, w => by
      simp only [quotedMatch, tryToken_add s t q w, cAt_drop]
      cases tryToken (s.drop q) t w with
      | taken w' v nl => simp only [shiftResult]; split_ifs <;> rfl
      | passed w' => exact quotedMatch_add s q ts w'

variable (ins)

def AttemptAgrees (p : Nat) (r r' : List Char) : Attempt σ → Attempt σ → Prop
  | .matched t d v nl, .matched t' d' v' nl' => t = t' ∧ v = v' ∧ nl = nl' ∧ Resumes ins p r r' d d'
  | .unmatched d, .unmatched d' => d = d' ∧ r'.drop d = insertBlanks ins (p + d) (r.drop d)
  | _, _ => False

variable {ins}

theorem resumes_shift {p d d' : Nat} {r r' : List Char} (hd : d ≤ r.length) (hd' : d' ≤ r'.length)
    {w w' : Nat} (h : Resumes ins (p + d) (r.drop d) (r'.drop d') w w') : Resumes ins p r r' (d + w) (d' + w') := by
  obtain ⟨hlen, pre, hpre, hdrop⟩ := h
  simp only [List.length_drop, List.drop_drop] at hlen hdrop
  refine ⟨by omega, pre, hpre, ?_⟩
  rw [hdrop, Nat.add_assoc]

theorem attemptAgrees_shift {p d : Nat} {r r' : List Char} (hd : d ≤ r.length) (hd' : d ≤ r'.length)
    {A A' : Attempt σ} (h : AttemptAgrees ins (p + d) (r.drop d) (r'.drop d) A A') :
    AttemptAgrees ins p r r' (shiftAttempt d A) (shiftAttempt d A') := by
  rcases A with ⟨t, w, v, nl⟩ | w <;> rcases A' with ⟨t', w', v', nl'⟩ | w' <;> simp only [AttemptAgrees] at h
  · obtain ⟨rfl, rfl, rfl, hres⟩ := h
    exact ⟨rfl, rfl, rfl, resumes_shift hd hd' hres⟩
  · obtain ⟨rfl, hdrop⟩ := h
    simp only [List.drop_drop] at hdrop
    exact ⟨rfl, by rw [hdrop, Nat.add_assoc]⟩

variable (ins)

def QuietSpans (p : Nat) (r : List Char) (ts : List (Token σ)) : Prop :=
  ∀ a e, quotedMatch r ts 0 = some (a, e) → ∀ j, a < j → j < e → cAt r j = '\n' → ins (p + j + 1) = []

variable {ins}

theorem quietSpans_noInsert {t : Token σ} {ts : List (Token σ)} {p : Nat} {r : List Char}
    (hq : QuietSpans ins p r (t :: ts)) (ht : t.name = "string" ∨ t.name = "word") (hr : cAt r 0 = '"') :
    NoInsert ins (p + 1) r.tail (scanQuoted '"' r.tail) := by
  intro j hj hlf
  rcases r with _ | ⟨c, rt⟩
  · simp at hr
  obtain rfl : c = '"' := hr
  simp only [List.tail_cons] at hj hlf
  have htry := tryToken_quoted ht (s := '"' :: rt) (w := 0) rfl
  rw [finishMatch, if_neg (by omega)] at htry
  have hm : quotedMatch ('"' :: rt) (t :: ts) 0 =
      some (0, 0 + 1 + scanQuoted '"' rt + if cAt rt (scanQuoted '"' rt) = '"' then 1 else 0) := by
    simp only [quotedMatch, htry, cAt_cons_zero, and_true, if_pos ht]
  have := hq 0 _ hm (j + 1) (by omega) (by omega) hlf
  rwa [Nat.add_comm j 1, ← Nat.add_assoc] at this

theorem quietSpans_of_passed {t : Token σ} {ts : List (Token σ)} {p : Nat} {r : List Char} {d : Nat}
    (hq : QuietSpans ins p r (t :: ts)) (hA : tryToken r t 0 = .passed d) : QuietSpans ins (p + d) (r.drop d) ts := by
  intro a e h j haj hje hlf
  have hm := quotedMatch_add r d ts 0
  rw [Nat.add_zero, h, Option.map_some'] at hm
  have := hq (d + a) (d + e) (by rw [quotedMatch, hA]; exact hm) (d + j) (by omega) (by omega)
    (by rwa [← cAt_drop])
  rwa [← Nat.add_assoc] at this

theorem matchTokens_agrees (hins : ∀ j, Blank (ins j)) :
    ∀ {ts : List (Token σ)} {p : Nat} {r : List Char}, (∀ t ∈ ts, isLiteral t → '\n' ∉ (spelling t).dropLast) →
      (∀ t ∈ ts, '\x00' ∉ spelling t) → QuietSpans ins p r ts →
      AttemptAgrees ins p r (insertBlanks ins p r) (matchTokens r ts 0) (matchTokens (insertBlanks ins p r) ts 0)
  | [], _, _, _, _, _ => ⟨rfl, by simp⟩
  | t :: ts, p, r, hlit, hnul, hq => by
      have hT := tryToken_agrees hins (hlit t (List.mem_cons_self _ _)) (hnul t (List.mem_cons_self _ _))
        (p := p) (r := r) (quietSpans_noInsert hq)
      unfold matchTokens
      rcases hA : tryToken r t 0 with ⟨d, v, nl⟩ | d <;>
        rcases hA' : tryToken (insertBlanks ins p r) t 0 with ⟨d', v', nl'⟩ | d' <;>
        rw [hA, hA'] at hT <;> simp only [ResultAgrees] at hT
      · obtain ⟨rfl, rfl, hres⟩ := hT
        exact ⟨rfl, rfl, rfl, hres⟩
      · obtain ⟨rfl, hdrop⟩ := hT
        have hd : d ≤ r.length := by
          rcases tryToken_passed hA with rfl | ⟨hq, rfl⟩
          · exact Nat.zero_le _
          · exact cAt_lt_length hq (by decide)
        have e1 := matchTokens_add r d ts 0
        have e2 := matchTokens_add (insertBlanks ins p r) d ts 0
        rw [Nat.add_zero] at e1 e2
        dsimp only
        rw [e1, e2]
        refine attemptAgrees_shift hd (hd.trans (length_le_insertBlanks p r)) ?_
        rw [hdrop]
        exact matchTokens_agrees hins (fun u hu => hlit u (List.mem_cons_of_mem _ hu))
          (fun u hu => hnul u (List.mem_cons_of_mem _ hu)) (quietSpans_of_passed hq hA)

end I3Config.Blanks
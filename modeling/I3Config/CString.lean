import Mathlib.Data.List.Basic

namespace I3Config.CString

/-- The byte at offset `i` of a NUL-terminated string held as its contents:
offsets at or past the end read the terminating NUL. -/
def cAt (s : List Char) (i : Nat) : Char := s.getD i '\x00'

def isLineEnd (c : Char) : Bool := c = '\n' || c = '\r'

/-- `isspace` of the C locale, as `strtol` uses it. -/
def isspace (c : Char) : Bool :=
  c = ' ' || c = '\t' || c = '\n' || c = '\x0b' || c = '\x0c' || c = '\r'

/-- `strncasecmp (a, b, n) == 0`: the first `n` bytes agree up to ASCII case,
where a NUL reached in both strings ends the comparison early. -/
def strncasecmp (a b : List Char) : Nat → Bool
  | 0 => true
  | n + 1 =>
      (cAt a 0).toLower = (cAt b 0).toLower && (cAt a 0 = '\x00' || strncasecmp a.tail b.tail n)

/-- `strcasecmp (a, b) == 0`: the comparison runs until a NUL is reached in
both strings, so past the longer one it can only end. -/
def strcasecmp (a b : List Char) : Bool := strncasecmp a b (max a.length b.length + 1)

/-- `strcasestr (hay, key)`, as the offset of the first case-insensitive
occurrence of `key` in `hay`. -/
def strcasestr (key : List Char) : List Char → Option Nat
  | [] => if key = [] then some 0 else none
  | c :: cs => if strncasecmp (c :: cs) key key.length then some 0 else (strcasestr key cs).map (· + 1)

/-- The contents of the C string that starts at the head of `s`: the bytes
before its first NUL. -/
def cString (s : List Char) : List Char := s.takeWhile (· ≠ '\x00')

/-- `strncpy (dest, src, n)`: the first `n` bytes of the C string `src`, then
NULs up to `n` bytes. -/
def strncpy (src : List Char) (n : Nat) : List Char :=
  (cString src).take n ++ List.replicate (n - (cString src).length) '\x00'

@[simp] theorem cAt_nil (i : Nat) : cAt [] i = '\x00' := by simp [cAt]

@[simp] theorem cAt_cons_zero (c : Char) (cs : List Char) : cAt (c :: cs) 0 = c := rfl

@[simp] theorem cAt_cons_succ (c : Char) (cs : List Char) (i : Nat) :
    cAt (c :: cs) (i + 1) = cAt cs i := rfl

theorem cAt_drop (s : List Char) (w i : Nat) : cAt (s.drop w) i = cAt s (w + i) := by
  simp [cAt, List.getD_eq_getElem?_getD, Nat.add_comm]

theorem cAt_of_length_le {s : List Char} {i : Nat} (h : s.length ≤ i) : cAt s i = '\x00' := by
  simp [cAt, List.getD_eq_getElem?_getD, List.getElem?_eq_none h]

theorem toLower_eq_of_lt {c d : Char} (h : c.toLower = d) (hd : d.toNat < 97) : c = d := by
  simp only [Char.toLower] at h
  split_ifs at h with hc
  · have hv : (c.toNat + 32).isValidChar := Or.inl (by omega)
    rw [Char.ofNat, dif_pos hv] at h
    have := congrArg Char.toNat h
    simp only [Char.ofNatAux, Char.toNat, UInt32.toNat, BitVec.toNat_ofNatLt] at this hc hd
    omega
  · exact h

theorem toLower_eq_nul {c : Char} (h : c.toLower = '\x00') : c = '\x00' := toLower_eq_of_lt h (by decide)

theorem strncasecmp_length_le {a b : List Char} (hb : '\x00' ∉ b)
    (h : strncasecmp a b b.length = true) : b.length ≤ a.length := by
  induction b generalizing a with
  | nil => simp
  | cons d ds ih =>
      have hd : d ≠ '\x00' := fun h' => hb (List.mem_cons.2 (.inl h'.symm))
      cases a with
      | nil =>
          simp only [strncasecmp, cAt_nil, cAt_cons_zero, Bool.and_eq_true, decide_eq_true_eq] at h
          exact absurd (toLower_eq_nul (h.1.symm.trans (by decide))) hd
      | cons c cs =>
          simp only [strncasecmp, cAt_cons_zero, List.tail_cons, Bool.and_eq_true, decide_eq_true_eq,
            Bool.or_eq_true, List.length_cons] at h
          have hc : c ≠ '\x00' := by
            rintro rfl
            exact hd (toLower_eq_nul (h.1.symm.trans (by decide)))
          have := ih (fun h' => hb (List.mem_cons_of_mem _ h')) (h.2.resolve_left (by simpa using hc))
          simpa using this

theorem strncasecmp_nil_left : ∀ {b : List Char} {n : Nat}, '\x00' ∉ b →
    (strncasecmp [] b (n + 1) = true ↔ b = [])
  | [], _, _ => by simp [strncasecmp]
  | d :: ds, _, hb => by
      have hd : d ≠ '\x00' := fun h => hb (h ▸ List.mem_cons_self _ _)
      simp only [strncasecmp, cAt_nil, cAt_cons_zero, Bool.and_eq_true, decide_eq_true_eq, reduceCtorEq, iff_false]
      exact fun h => hd (toLower_eq_nul (h.1.symm.trans (by decide)))

theorem strncasecmp_iff : ∀ {a b : List Char} {n : Nat}, '\x00' ∉ a → '\x00' ∉ b →
    max a.length b.length < n → (strncasecmp a b n = true ↔ a.map Char.toLower = b.map Char.toLower)
  | _, _, 0, _, _, hn => absurd hn (Nat.not_lt_zero _)
  | [], b, n + 1, _, hb, _ => by
      rw [strncasecmp_nil_left hb]
      cases b <;> simp
  | c :: cs, [], n + 1, ha, _, _ => by
      have hc : c ≠ '\x00' := fun h => ha (h ▸ List.mem_cons_self _ _)
      simp only [strncasecmp, cAt_nil, cAt_cons_zero, Bool.and_eq_true, decide_eq_true_eq, List.map_cons,
        List.map_nil, reduceCtorEq, iff_false]
      exact fun h => hc (toLower_eq_nul (h.1.trans (by decide)))
  | c :: cs, d :: ds, n + 1, ha, hb, hn => by
      have hc : c ≠ '\x00' := fun h => ha (h ▸ List.mem_cons_self _ _)
      have ih := @strncasecmp_iff cs ds n (fun h => ha (List.mem_cons_of_mem _ h))
        (fun h => hb (List.mem_cons_of_mem _ h)) (by simp only [List.length_cons] at hn; omega)
      simp only [strncasecmp, cAt_cons_zero, List.tail_cons, Bool.and_eq_true, decide_eq_true_eq,
        Bool.or_eq_true, hc, false_or, ih, List.map_cons, List.cons.injEq]

theorem strcasecmp_iff {a b : List Char} (ha : '\x00' ∉ a) (hb : '\x00' ∉ b) :
    strcasecmp a b = true ↔ a.map Char.toLower = b.map Char.toLower :=
  strncasecmp_iff ha hb (Nat.lt_succ_self _)

theorem cString_nul_free (s : List Char) : '\x00' ∉ cString s := fun h => by
  simpa using List.mem_takeWhile_imp h

theorem cString_of_nul_free {s : List Char} (h : '\x00' ∉ s) : cString s = s :=
  List.takeWhile_eq_self_iff.2 fun c hc => by
    simp only [ne_eq, decide_eq_true_eq]
    rintro rfl
    exact h hc

theorem cString_prefix_self (s : List Char) : cString s <+: s := List.takeWhile_prefix _

theorem cString_append_of_nul_free {a : List Char} (ha : '\x00' ∉ a) (b : List Char) :
    cString (a ++ b) = a ++ cString b :=
  List.takeWhile_append_of_pos fun c hc => by
    simp only [ne_eq, decide_eq_true_eq]
    rintro rfl
    exact ha hc

@[simp] theorem cString_replicate_nul (n : Nat) : cString (List.replicate n '\x00') = [] := by
  simp [cString, List.takeWhile_replicate]

theorem cString_drop : ∀ {s : List Char} {w : Nat}, w ≤ (cString s).length → cString (s.drop w) = (cString s).drop w
  | _, 0, _ => rfl
  | [], _ + 1, _ => rfl
  | c :: cs, w + 1, h => by
      by_cases hc : c = '\x00'
      · simp [cString, hc] at h
      · have hcons : cString (c :: cs) = c :: cString cs := by simp [cString, hc]
        rw [hcons, List.length_cons] at h
        rw [hcons, List.drop_succ_cons, List.drop_succ_cons, cString_drop (Nat.le_of_succ_le_succ h)]

theorem strncpy_of_le {s : List Char} {n : Nat} (h : n ≤ (cString s).length) : strncpy s n = (cString s).take n := by
  simp [strncpy, Nat.sub_eq_zero_of_le h]

theorem strncpy_of_ge {s : List Char} {n : Nat} (h : (cString s).length ≤ n) :
    strncpy s n = cString s ++ List.replicate (n - (cString s).length) '\x00' := by
  rw [strncpy, List.take_of_length_le h]

theorem strncpy_rest {s : List Char} {w : Nat} (hw : w ≤ (cString s).length) :
    strncpy (s.drop w) (s.length - w) = (cString s).drop w ++ List.replicate (s.length - (cString s).length) '\x00' := by
  have hp := (cString_prefix_self s).length_le
  rw [strncpy_of_ge (by rw [cString_drop hw, List.length_drop]; omega), cString_drop hw, List.length_drop,
    show s.length - w - ((cString s).length - w) = s.length - (cString s).length by omega]

theorem strncpy_drop {s : List Char} {w m : Nat} (h : w + m ≤ (cString s).length) :
    strncpy (s.drop w) m = ((cString s).drop w).take m := by
  rw [strncpy_of_le (by rw [cString_drop (by omega), List.length_drop]; omega), cString_drop (by omega)]

end I3Config.CString

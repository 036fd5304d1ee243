import I3Config.ValueStack
import Mathlib.Data.Finset.Card

namespace I3Config.CaptureWindow

open ValueStack

abbrev Window := List (String × StackVal)

def strings (x : String) : Window → List (List Char)
  | [] => []
  | (y, .str v) :: w => if y = x then v :: strings x w else strings x w
  | (_, .long _) :: w => strings x w

def longs (x : String) : Window → List Int
  | [] => []
  | (y, .long n) :: w => if y = x then n :: longs x w else longs x w
  | (_, .str _) :: w => longs x w

/-- What a handler should read for `x`: the `','`-join of the strings captured
under it, else the number captured under it. -/
def windowValue (w : Window) (x : String) : Option StackVal :=
  match strings x w with
  | [] => (longs x w).head?.map .long
  | vs => some (.str ([','].intercalate vs))

/-- The provisos under which the stack can hold a window: at most ten
identifiers, none captured both as a string and as a number, and no number
captured twice. -/
def WindowOk (w : Window) : Prop :=
  (w.map Prod.fst).toFinset.card ≤ 10 ∧
    ∀ x ∈ w.map Prod.fst, (strings x w = [] ∨ longs x w = []) ∧ (longs x w).length ≤ 1

instance : DecidablePred WindowOk := fun _ => inferInstanceAs (Decidable (_ ∧ _))

@[simp] theorem strings_append_str (x y : String) (v : List Char) (w : Window) :
    strings x (w ++ [(y, .str v)]) = strings x w ++ if y = x then [v] else [] := by
  induction w with
  | nil => simp [strings]
  | cons p w ih =>
      rcases p with ⟨z, _ | _⟩ <;> rw [List.cons_append] <;> simp only [strings, ih]
      split_ifs <;> simp

@[simp] theorem strings_append_long (x y : String) (n : Int) (w : Window) :
    strings x (w ++ [(y, .long n)]) = strings x w := by
  induction w with
  | nil => simp [strings]
  | cons p w ih => rcases p with ⟨z, _ | _⟩ <;> rw [List.cons_append] <;> simp only [strings, ih]

@[simp] theorem longs_append_str (x y : String) (v : List Char) (w : Window) :
    longs x (w ++ [(y, .str v)]) = longs x w := by
  induction w with
  | nil => simp [longs]
  | cons p w ih => rcases p with ⟨z, _ | _⟩ <;> rw [List.cons_append] <;> simp only [longs, ih]

@[simp] theorem longs_append_long (x y : String) (n : Int) (w : Window) :
    longs x (w ++ [(y, .long n)]) = longs x w ++ if y = x then [n] else [] := by
  induction w with
  | nil => simp [longs]
  | cons p w ih =>
      rcases p with ⟨z, _ | _⟩ <;> rw [List.cons_append] <;> simp only [longs, ih]
      split_ifs <;> simp

theorem mem_ids (x : String) (w : Window) :
    x ∈ w.map Prod.fst ↔ strings x w ≠ [] ∨ longs x w ≠ [] := by
  induction w with
  | nil => simp [strings, longs]
  | cons p w ih =>
      rcases p with ⟨y, _ | _⟩ <;> by_cases h : y = x
      · subst h; simp [strings]
      · simp [strings, longs, ih, h, Ne.symm h]
      · subst h; simp [longs]
      · simp [strings, longs, ih, h, Ne.symm h]

theorem intercalate_snoc (sep : List Char) :
    ∀ {vs : List (List Char)}, vs ≠ [] → ∀ v, sep.intercalate (vs ++ [v]) = sep.intercalate vs ++ sep ++ v
  | [], h, _ => absurd rfl h
  | [a], _, v => by simp [List.intercalate]
  | a :: b :: vs, _, v => by
      have ih := @intercalate_snoc sep (b :: vs) (by simp) v
      simp only [List.intercalate, List.cons_append, List.intersperse_cons₂, List.flatten_cons] at ih ⊢
      rw [ih]; simp

theorem windowValue_of_strings {w : Window} {x : String} (h : strings x w ≠ []) :
    windowValue w x = some (.str ([','].intercalate (strings x w))) := by
  unfold windowValue; split <;> simp_all

theorem windowValue_of_longs {w : Window} {x : String} (h : strings x w = []) :
    windowValue w x = (longs x w).head?.map .long := by
  unfold windowValue; rw [h]

theorem windowValue_push_str (w : Window) (x : String) (v : List Char) (y : String) :
    windowValue (w ++ [(x, .str v)]) y =
      if y = x then some (.str ([','].intercalate (strings x w ++ [v]))) else windowValue w y := by
  split_ifs with h
  · subst h; rw [windowValue_of_strings (by simp)]; simp
  · unfold windowValue; simp [Ne.symm h]

theorem windowValue_push_long {w : Window} {x : String} (n : Int) (hs : strings x w = [])
    (hl : longs x w = []) (y : String) :
    windowValue (w ++ [(x, .long n)]) y = if y = x then some (.long n) else windowValue w y := by
  split_ifs with h
  · subst h; rw [windowValue_of_longs (by simpa using hs)]; simp [hl]
  · unfold windowValue; simp [Ne.symm h]

theorem lookupSlots_append (y : String) :
    ∀ (occ : List (String × StackVal)) (rest : List Slot),
      lookupSlots y (occ.map some ++ rest) = (lookupSlots y (occ.map some)).elim (lookupSlots y rest) some
  | [], _ => rfl
  | (z, v) :: occ, rest => by
      simp only [List.map_cons, List.cons_append, lookupSlots]
      split_ifs
      · rfl
      · exact lookupSlots_append y occ rest

theorem lookupSlots_replicate (y : String) (m : Nat) : lookupSlots y (List.replicate m none) = none := by
  cases m <;> rfl

theorem lookupSlots_eq_none {y : String} :
    ∀ {occ : List (String × StackVal)}, lookupSlots y (occ.map some) = none ↔ y ∉ occ.map Prod.fst
  | [] => by simp [lookupSlots]
  | (z, v) :: occ => by
      simp only [List.map_cons, lookupSlots, List.mem_cons, not_or]
      split_ifs with h
      · simp [h]
      · simp [h, lookupSlots_eq_none]

theorem pushStringSlots_fresh {x : String} (v : List Char) (m : Nat) :
    ∀ {occ : List (String × StackVal)}, x ∉ occ.map Prod.fst →
      pushStringSlots x v (occ.map some ++ List.replicate (m + 1) none) =
        .ok ((occ ++ [(x, StackVal.str v)]).map some ++ List.replicate m none)
  | [], _ => rfl
  | (z, val) :: occ, h => by
      simp only [List.map_cons, List.mem_cons, not_or] at h
      simp [pushStringSlots, Ne.symm h.1, pushStringSlots_fresh v m h.2]

theorem pushLongSlots_free (x : String) (n : Int) (m : Nat) :
    ∀ occ : List (String × StackVal), pushLongSlots x n (occ.map some ++ List.replicate (m + 1) none) =
      .ok ((occ ++ [(x, StackVal.long n)]).map some ++ List.replicate m none)
  | [] => rfl
  | p :: occ => by simp [pushLongSlots, pushLongSlots_free x n m occ]

def setValue (x : String) (val : StackVal) : List (String × StackVal) → List (String × StackVal)
  | [] => []
  | (y, v) :: occ => if y = x then (x, val) :: setValue x val occ else (y, v) :: setValue x val occ

@[simp] theorem setValue_ids (x : String) (val : StackVal) :
    ∀ occ : List (String × StackVal), (setValue x val occ).map Prod.fst = occ.map Prod.fst
  | [] => rfl
  | (y, v) :: occ => by
      unfold setValue; split_ifs with h <;> simp [h, setValue_ids x val occ]

@[simp] theorem setValue_length (x : String) (val : StackVal) (occ : List (String × StackVal)) :
    (setValue x val occ).length = occ.length := by
  rw [← List.length_map _ Prod.fst, setValue_ids, List.length_map]

theorem setValue_of_not_mem {x : String} {val : StackVal} :
    ∀ {occ : List (String × StackVal)}, x ∉ occ.map Prod.fst → setValue x val occ = occ
  | [], _ => rfl
  | (y, v) :: occ, h => by
      simp only [List.map_cons, List.mem_cons, not_or] at h
      simp only [setValue, if_neg (Ne.symm h.1), setValue_of_not_mem h.2]

theorem pushStringSlots_held {x : String} (v prev : List Char) (rest : List Slot) :
    ∀ {occ : List (String × StackVal)}, (occ.map Prod.fst).Nodup →
      lookupSlots x (occ.map some) = some (.str prev) →
      pushStringSlots x v (occ.map some ++ rest) =
        .ok ((setValue x (.str (prev ++ ',' :: v)) occ).map some ++ rest)
  | [], _, h => by simp [lookupSlots] at h
  | (z, val) :: occ, hnd, h => by
      simp only [List.map_cons, List.nodup_cons] at hnd
      simp only [List.map_cons, lookupSlots] at h
      by_cases hz : z = x
      · subst hz
        simp only [if_true, Option.some.injEq] at h
        subst h
        simp [pushStringSlots, setValue, setValue_of_not_mem hnd.1]
      · rw [if_neg (Ne.symm hz)] at h
        simp [pushStringSlots, hz, setValue, pushStringSlots_held v prev rest hnd.2 h]

theorem lookupSlots_setValue (x : String) (val : StackVal) (y : String) :
    ∀ occ : List (String × StackVal), lookupSlots y ((setValue x val occ).map some) =
      if y = x then (if x ∈ occ.map Prod.fst then some val else none) else lookupSlots y (occ.map some)
  | [] => by simp [setValue, lookupSlots]
  | (z, v) :: occ => by
      have ih := lookupSlots_setValue x val y occ
      by_cases hz : z = x
      · subst hz; by_cases hy : y = z <;> simp [setValue, lookupSlots, hy, ih]
      · by_cases hy : y = x
        · subst hy
          simp only [setValue, if_neg hz, List.map_cons, lookupSlots, if_neg (Ne.symm hz), ih, if_true,
            List.mem_cons, Ne.symm hz, false_or, if_false]
        · simp [setValue, lookupSlots, hz, hy, ih]

theorem lookupSlots_snoc (y x : String) (val : StackVal) (occ : List (String × StackVal)) :
    lookupSlots y ((occ ++ [(x, val)]).map some) =
      (lookupSlots y (occ.map some)).elim (if y = x then some val else none) some := by
  rw [List.map_append, lookupSlots_append]
  simp only [List.map_cons, List.map_nil, lookupSlots]

/-- The stack holds the window: its occupied slots come first, one for each
identifier of the window, and every lookup answers as the window does. -/
def Represents (k : Stack) (w : Window) : Prop :=
  ∃ occ : List (String × StackVal), k.slots = occ.map some ++ List.replicate (10 - occ.length) none ∧
    (occ.map Prod.fst).Nodup ∧ (∀ x, x ∈ occ.map Prod.fst ↔ x ∈ w.map Prod.fst) ∧
    ∀ x, lookupSlots x (occ.map some) = windowValue w x

theorem represents_empty : Represents emptyStack [] :=
  ⟨[], rfl, List.nodup_nil, by simp, fun _ => by simp [lookupSlots, windowValue, strings, longs]⟩

theorem lookup_of_represents {k : Stack} {w : Window} (h : Represents k w) : lookup k = windowValue w := by
  obtain ⟨occ, hk, -, -, hl⟩ := h
  funext x
  rw [lookup, hk, lookupSlots_append, lookupSlots_replicate, ← hl]
  cases lookupSlots x (occ.map some) <;> rfl

theorem occ_length {occ : List (String × StackVal)} {w : Window} (hnd : (occ.map Prod.fst).Nodup)
    (hmem : ∀ x, x ∈ occ.map Prod.fst ↔ x ∈ w.map Prod.fst) :
    occ.length = (w.map Prod.fst).toFinset.card := by
  rw [← List.length_map occ Prod.fst, ← List.toFinset_card_of_nodup hnd]
  congr 1
  ext x; simp only [List.mem_toFinset, hmem]

theorem mem_ids_snoc (w : Window) (x : String) (val : StackVal) : x ∈ (w ++ [(x, val)]).map Prod.fst :=
  List.mem_map_of_mem _ (List.mem_append_right w (List.mem_singleton_self _))

theorem card_push_fresh {w : Window} {x : String} {val : StackVal} (hx : x ∉ w.map Prod.fst) :
    ((w ++ [(x, val)]).map Prod.fst).toFinset.card = (w.map Prod.fst).toFinset.card + 1 := by
  rw [List.map_append, List.toFinset_append]
  simp only [List.map_cons, List.map_nil, List.toFinset_cons, List.toFinset_nil, insert_emptyc_eq]
  rw [Finset.union_comm, ← Finset.insert_eq, Finset.card_insert_of_not_mem (by simpa using hx)]

theorem represents_snoc {k' : Stack} {w : Window} {occ : List (String × StackVal)} {x : String}
    {val : StackVal} {m : Nat} (hnd : (occ.map Prod.fst).Nodup)
    (hmem : ∀ y, y ∈ occ.map Prod.fst ↔ y ∈ w.map Prod.fst) (hl : ∀ y, lookupSlots y (occ.map some) = windowValue w y)
    (hx : x ∉ occ.map Prod.fst) (hm : 10 - occ.length = m + 1)
    (hk' : k'.slots = (occ ++ [(x, val)]).map some ++ List.replicate m none)
    (hval : ∀ y, windowValue (w ++ [(x, val)]) y = if y = x then some val else windowValue w y) :
    Represents k' (w ++ [(x, val)]) := by
  refine ⟨occ ++ [(x, val)], ?_, by simpa using hnd.concat hx, fun y => by simp [hmem], fun y => ?_⟩
  · rw [hk']; congr 2; simp; omega
  · rw [lookupSlots_snoc, hval]
    by_cases hy : y = x
    · subst hy; rw [(lookupSlots_eq_none).2 hx]; simp
    · rw [if_neg hy, ← hl]; cases lookupSlots y (occ.map some) <;> simp [hy]

theorem represents_pushString {k : Stack} {w : Window} {x : String} {v : List Char}
    (h : Represents k w) (hok : WindowOk (w ++ [(x, .str v)])) :
    ∃ k', pushString x v k = .ok k' ∧ Represents k' (w ++ [(x, .str v)]) := by
  obtain ⟨occ, hk, hnd, hmem, hl⟩ := h
  have hlong : longs x w = [] := by
    have := (hok.2 x (mem_ids_snoc w x _)).1
    simpa using this
  by_cases hx : x ∈ occ.map Prod.fst
  · have hs : strings x w ≠ [] := by
      have := (mem_ids x w).1 ((hmem x).1 hx); simpa [hlong] using this
    have hprev := (hl x).trans (windowValue_of_strings hs)
    obtain ⟨k', hpush, hk'⟩ := pushString_of_slots
      (hk ▸ pushStringSlots_held (x := x) v _ _ hnd hprev)
    refine ⟨k', hpush, setValue x (.str ([','].intercalate (strings x w) ++ ',' :: v)) occ, ?_, ?_, ?_, ?_⟩
    · rw [hk', setValue_length]
    · rwa [setValue_ids]
    · intro y
      simp only [setValue_ids, hmem, List.map_append, List.mem_append, List.map_cons, List.map_nil,
        List.mem_singleton, iff_self_or]
      rintro rfl; exact (hmem y).1 hx
    · intro y
      rw [lookupSlots_setValue, windowValue_push_str, if_pos hx, ← hl]
      split_ifs with hy
      · rw [intercalate_snoc _ hs]; simp
      · rfl
  · have hw : x ∉ w.map Prod.fst := fun h => hx ((hmem x).2 h)
    have hcard := @card_push_fresh w x (.str v) hw
    have hlen := occ_length hnd hmem
    obtain ⟨m, hm⟩ : ∃ m, 10 - occ.length = m + 1 := ⟨10 - occ.length - 1, by have := hok.1; omega⟩
    obtain ⟨k', hpush, hk'⟩ := pushString_of_slots (hk ▸ hm ▸ pushStringSlots_fresh (x := x) v m hx)
    have hs : strings x w = [] := by simpa using (not_or.1 ((mem_ids x w).not.1 hw)).1
    exact ⟨k', hpush, represents_snoc hnd hmem hl hx hm hk' fun y => by
      rw [windowValue_push_str, hs]; simp [List.intercalate]⟩

theorem represents_pushLong {k : Stack} {w : Window} {x : String} {n : Int}
    (h : Represents k w) (hok : WindowOk (w ++ [(x, .long n)])) :
    ∃ k', pushLong x n k = .ok k' ∧ Represents k' (w ++ [(x, .long n)]) := by
  obtain ⟨occ, hk, hnd, hmem, hl⟩ := h
  have hsl : strings x w = [] ∧ longs x w = [] := by
    have h2 := hok.2 x (mem_ids_snoc w x _)
    simp only [strings_append_long, longs_append_long, if_true, List.length_append,
      List.length_singleton] at h2
    refine ⟨?_, List.eq_nil_of_length_eq_zero (by omega)⟩
    rcases h2.1 with h | h
    · exact h
    · simp at h
  have hw : x ∉ w.map Prod.fst := by rw [mem_ids]; simp [hsl.1, hsl.2]
  have hx : x ∉ occ.map Prod.fst := fun h => hw ((hmem x).1 h)
  have hcard := @card_push_fresh w x (.long n) hw
  have hlen := occ_length hnd hmem
  obtain ⟨m, hm⟩ : ∃ m, 10 - occ.length = m + 1 := ⟨10 - occ.length - 1, by have := hok.1; omega⟩
  obtain ⟨k', hpush, hk'⟩ := pushLong_of_slots (hk ▸ hm ▸ pushLongSlots_free x n m occ)
  exact ⟨k', hpush, represents_snoc hnd hmem hl hx hm hk' (windowValue_push_long n hsl.1 hsl.2)⟩

theorem represents_clear (k : Stack) : Represents (clearStack k) [] := represents_empty

theorem eq_empty_of_represents {k : Stack} (h : Represents k []) : k = emptyStack := by
  obtain ⟨occ, hk, -, hmem, -⟩ := h
  have : occ = [] := by
    rcases occ with _ | ⟨p, occ⟩
    · rfl
    · simpa using (hmem p.1).1 (by simp)
  subst this; exact Stack.ext hk

/-- What `get_string` returns for `x` from a stack that holds the window: the
`','`-join of the strings captured under it, NULL when nothing was, and a
number captured under it read as a pointer. -/
def windowString (w : Window) (x : String) : CStr :=
  match strings x w, longs x w with
  | [], [] => .null
  | [], n :: _ => if n = 0 then .null else .punned n
  | vs, _ => .chars ([','].intercalate vs)

/-- What `get_long` returns for `x`: the number captured under it, 0 when
nothing was, and the address of the joined strings captured under it. -/
def windowLong (w : Window) (x : String) : CLong :=
  match strings x w, longs x w with
  | [], [] => .num 0
  | [], n :: _ => .num n
  | vs, _ => .address ([','].intercalate vs)

theorem readString_windowValue (w : Window) (x : String) : readString (windowValue w x) = windowString w x := by
  rw [windowValue, windowString]
  rcases strings x w with _ | ⟨v, vs⟩ <;> rcases longs x w with _ | ⟨n, ns⟩ <;> rfl

theorem readLong_windowValue (w : Window) (x : String) : readLong (windowValue w x) = windowLong w x := by
  rw [windowValue, windowLong]
  rcases strings x w with _ | ⟨v, vs⟩ <;> rcases longs x w with _ | ⟨n, ns⟩ <;> rfl

theorem getString_of_represents {k : Stack} {w : Window} (h : Represents k w) (x : String) :
    getString k x = windowString w x := by
  rw [getString, lookup_of_represents h, readString_windowValue]

theorem getLong_of_represents {k : Stack} {w : Window} (h : Represents k w) (x : String) :
    getLong k x = windowLong w x := by
  rw [getLong, lookup_of_represents h, readLong_windowValue]

end I3Config.CaptureWindow

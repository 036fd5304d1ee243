import I3Config.Substitution
import Mathlib.Data.List.Forall2
import Mathlib.Tactic.Ring

namespace I3Config.Allocation

open CString Variables Substitution

/-- The copy as the counting pass leaves it after one key, with the number of
matches counted: from left to right, each occurrence of the key has its first
byte overwritten by `'_'`, and the search goes on after it. -/
def markKey (key : List Char) : List Char → List Char × Nat
  | [] => ([], 0)
  | c :: cs =>
      if _h : key ≠ [] ∧ OccursAt key (c :: cs) then
        (markKey key ((c :: cs).drop key.length)).map ('_' :: cs.take (key.length - 1) ++ ·) (· + 1)
      else (markKey key cs).map (c :: ·) id
termination_by s => s.length
decreasing_by
  · have := List.length_pos.2 (‹key ≠ [] ∧ _›).1
    simp only [List.length_drop, List.length_cons]; omega
  · simp

/-- No two occurrences of keys in `s` overlap, unless they start at the same
byte. -/
def Apart (vars : List Variable) (s : List Char) : Prop :=
  ∀ u ∈ vars, ∀ v ∈ vars, ∀ q < s.length, ∀ p < q,
    OccursAt u.key (s.drop p) → OccursAt v.key (s.drop q) → p + u.key.length ≤ q

instance (vars : List Variable) (s : List Char) : Decidable (Apart vars s) :=
  inferInstanceAs (Decidable (∀ u ∈ vars, ∀ v ∈ vars, ∀ q < s.length, ∀ p < q,
    OccursAt u.key (s.drop p) → OccursAt v.key (s.drop q) → p + u.key.length ≤ q))

def Marked (t s : List Char) : Prop := List.Forall₂ (fun a b => a = b ∨ a = '_') t s

section Marks

variable {key : List Char}

@[simp] theorem markKey_nil : markKey key [] = ([], 0) := by rw [markKey]

theorem markKey_cons_of_occurs (hk : key ≠ []) {c : Char} {cs : List Char} (h : OccursAt key (c :: cs)) :
    markKey key (c :: cs) = ('_' :: cs.take (key.length - 1) ++ (markKey key ((c :: cs).drop key.length)).1,
      (markKey key ((c :: cs).drop key.length)).2 + 1) := by
  rw [markKey, dif_pos ⟨hk, h⟩]; rfl

theorem markKey_cons_of_not {c : Char} {cs : List Char} (h : ¬ OccursAt key (c :: cs)) :
    markKey key (c :: cs) = (c :: (markKey key cs).1, (markKey key cs).2) := by
  rw [markKey, dif_neg fun h' => h h'.2]; rfl

theorem markKey_take : ∀ (m : Nat) (s : List Char), (∀ j < m, ¬ OccursAt key (s.drop j)) →
    markKey key s = (s.take m ++ (markKey key (s.drop m)).1, (markKey key (s.drop m)).2)
  | 0, _, _ => rfl
  | _ + 1, [], _ => by simp
  | m + 1, c :: cs, h => by
      rw [markKey_cons_of_not (h 0 (Nat.succ_pos m)),
        markKey_take m cs fun j hj => by simpa using h (j + 1) (by omega)]
      rfl

theorem markKey_of_none {s : List Char} (h : ∀ j, ¬ OccursAt key (s.drop j)) : markKey key s = (s, 0) := by
  rw [markKey_take s.length s fun j _ => h j, List.take_length, List.drop_length, markKey_nil, List.append_nil]

theorem marked_refl (s : List Char) : Marked s s := List.forall₂_same.2 fun _ _ => .inl rfl

theorem markKey_marked : ∀ s : List Char, Marked (markKey key s).1 s
  | [] => by simp [Marked]
  | c :: cs => by
      by_cases h : key ≠ [] ∧ OccursAt key (c :: cs)
      · have ih := markKey_marked ((c :: cs).drop key.length)
        have hd : (c :: cs).drop key.length = cs.drop (key.length - 1) := by
          rw [← Nat.sub_add_cancel (List.length_pos.2 h.1)]; rfl
        rw [markKey_cons_of_occurs h.1 h.2]
        refine List.Forall₂.cons (.inr rfl) ?_
        rw [hd] at ih ⊢
        simpa only [List.take_append_drop] using List.rel_append (marked_refl (cs.take (key.length - 1))) ih
      · rw [markKey, dif_neg h]
        exact List.Forall₂.cons (.inl rfl) (markKey_marked cs)
termination_by s => s.length
decreasing_by
  all_goals simp only [List.length_drop, List.length_cons]
  all_goals first | omega | exact Nat.sub_lt (Nat.succ_pos _) (List.length_pos.2 h.1)

end Marks

theorem occursAt_of_marked {key : List Char} (hk : '_' ∉ key) :
    ∀ {t s : List Char}, Marked t s → OccursAt key t → OccursAt key s := by
  induction key with
  | nil => exact fun _ _ => List.nil_prefix
  | cons d ds ih =>
      intro t s hts hocc
      cases hts with
      | nil => exact absurd hocc (not_occursAt_nil (List.cons_ne_nil _ _))
      | cons hab hrest =>
          rename_i a b t s
          simp only [OccursAt, List.map_cons, List.cons_prefix_cons] at hocc ⊢
          rcases hab with rfl | rfl
          · exact ⟨hocc.1, ih (fun h => hk (List.mem_cons_of_mem _ h)) hrest hocc.2⟩
          · exact absurd (toLower_eq_of_lt hocc.1 (by decide) ▸ List.mem_cons_self _ _) hk

theorem Marked.not_mem {c : Char} (hc : c ≠ '_') : ∀ {t s : List Char}, Marked t s → c ∉ s → c ∉ t
  | _, _, .nil, _ => List.not_mem_nil _
  | _, _, .cons hab hrest, hs => by
      simp only [List.mem_cons, not_or] at hs ⊢
      exact ⟨fun h => hab.elim (fun h' => hs.1 (h.trans h')) (fun h' => hc (h.trans h')), Marked.not_mem hc hrest hs.2⟩

theorem occursAt_congr_take {key s t : List Char} (h : s.take key.length = t.take key.length) :
    OccursAt key s ↔ OccursAt key t := by
  simp only [OccursAt, List.prefix_iff_eq_take, List.length_map, ← List.map_take, h]

section Apart

variable {vars : List Variable} {s : List Char}

theorem Apart.drop (h : Apart vars s) (j : Nat) : Apart vars (s.drop j) := by
  intro u hu v hv q hq p hp hpu hqv
  rw [List.drop_drop] at hpu hqv
  simp only [List.length_drop] at hq
  have := h u hu v hv (j + q) (by omega) (j + p) (by omega) hpu hqv
  omega

theorem Apart.sub (h : Apart vars s) {vs : List Variable} (hsub : vs ⊆ vars) : Apart vs s :=
  fun u hu v hv => h u (hsub hu) v (hsub hv)

theorem Apart.shorten (h : Apart vars s) {t : List Char} (ht : t <+: s) : Apart vars t :=
  fun u hu v hv q hq p hp hpu hqv => h u hu v hv q (lt_of_lt_of_le hq ht.length_le) p hp
    (hpu.extend (prefix_drop ht p)) (hqv.extend (prefix_drop ht q))

theorem Apart.marked (h : Apart vars s) (hus : ∀ u ∈ vars, '_' ∉ u.key) {t : List Char} (ht : Marked t s) :
    Apart vars t := by
  intro u hu v hv q hq p hp hpu hqv
  rw [ht.length_eq] at hq
  exact h u hu v hv q hq p hp (occursAt_of_marked (hus u hu) (List.forall₂_drop p ht) hpu)
    (occursAt_of_marked (hus v hv) (List.forall₂_drop q ht) hqv)

end Apart

theorem countKey_eq_markKey {key : List Char} (hk : key ≠ []) (hnul : '\x00' ∉ key) {stSize : Nat} :
    ∀ fuel (copy : List Char) (next : Nat), '\x00' ∉ copy → copy.length ≤ stSize → stSize - next < fuel →
      countKey key stSize fuel copy next =
        (copy.take next ++ (markKey key (copy.drop next)).1, (markKey key (copy.drop next)).2)
  | 0, _, _, _, _, h => absurd h (Nat.not_lt_zero _)
  | fuel + 1, copy, next, hc, hlen, hf => by
      rw [countKey]
      by_cases hlt : next < stSize
      · rw [if_pos hlt, cString_of_nul_free fun h => hc (List.mem_of_mem_drop h)]
        cases hs : strcasestr key (copy.drop next) with
        | none => rw [markKey_of_none (strcasestr_none hk hnul hs), List.take_append_drop]
        | some m =>
            obtain ⟨hocc, hbefore⟩ := strcasestr_some hk hnul hs
            have hb := strcasestr_bound hnul hs
            have hpos := List.length_pos.2 hk
            simp only [List.length_drop] at hb
            rw [List.drop_drop] at hocc
            obtain ⟨c, cs, hcs⟩ : ∃ c cs, copy.drop (next + m) = c :: cs := List.exists_cons_of_ne_nil fun h => by
              have := hocc.length_le
              rw [h, List.length_nil] at this
              omega
            have hdec : copy = (copy.take next ++ (copy.drop next).take m) ++ c :: cs := by
              rw [← hcs, ← List.take_add, List.take_append_drop]
            have hlenA : (copy.take next ++ (copy.drop next).take m).length = next + m := by
              simp only [List.length_append, List.length_take, List.length_drop]; omega
            have hset : (copy.set (next + m) '_').take (next + m + key.length) =
                copy.take next ++ (copy.drop next).take m ++ '_' :: cs.take (key.length - 1) := by
              conv_lhs => rw [hdec]
              rw [List.set_append_right _ _ (by omega), hlenA, Nat.sub_self, List.set_cons_zero,
                List.take_append_eq_append_take, List.take_of_length_le (by omega), hlenA,
                show next + m + key.length - (next + m) = key.length - 1 + 1 by omega, List.take_succ_cons]
            dsimp only
            have hc' : '\x00' ∉ copy.set (next + m) '_' := fun h =>
              (List.mem_or_eq_of_mem_set h).elim hc fun h' => absurd h' (by decide)
            rw [countKey_eq_markKey hk hnul fuel _ _ hc' (by rw [List.length_set]; exact hlen) (by omega),
              List.drop_set_of_lt _ _ (by omega),
              markKey_take m _ hbefore, List.drop_drop, hcs, markKey_cons_of_occurs hk (hcs ▸ hocc),
              hset, ← hcs, List.drop_drop]
            simp only [Prod.map, id, List.append_assoc]
      · rw [if_neg hlt, List.take_of_length_le (by omega), List.drop_of_length_le (by omega), markKey_nil,
          List.append_nil]

theorem keyAt_cons (v : Variable) (vs : List Variable) (s : List Char) :
    keyAt (v :: vs) s = if v.key ≠ [] ∧ OccursAt v.key s then some v else keyAt vs s := by
  by_cases h : v.key ≠ [] ∧ OccursAt v.key s
  · rw [if_pos h]; exact List.find?_cons_of_pos _ (decide_eq_true h)
  · rw [if_neg h]; exact List.find?_cons_of_neg _ (by simpa using h)

theorem keyAt_eq_none {vs : List Variable} {s : List Char} (h : ∀ u ∈ vs, u.key ≠ [] → ¬ OccursAt u.key s) :
    keyAt vs s = none :=
  List.find?_eq_none.2 fun u hu hp => by
    simp only [decide_eq_true_eq] at hp
    exact h u hu hp.1 hp.2

theorem keyAt_none_of_marked {vs : List Variable} (hus : ∀ u ∈ vs, '_' ∉ u.key) {s t : List Char}
    (hm : Marked t s) (h : keyAt vs s = none) : keyAt vs t = none :=
  keyAt_eq_none fun u hu hne hu' => by
    have := List.find?_eq_none.1 h u hu
    simp only [decide_eq_true_eq, not_and, not_not] at this
    exact this hne (occursAt_of_marked (hus u hu) hm hu')

theorem keyAt_some_of_marked {vs : List Variable} (hus : ∀ u ∈ vs, '_' ∉ u.key) {s t : List Char}
    {u : Variable} (hm : Marked t s) (ht : t.take u.key.length = s.take u.key.length)
    (h : keyAt vs s = some u) : keyAt vs t = some u := by
  obtain ⟨-, hne, huocc⟩ := keyAt_some h
  obtain ⟨-, as, bs, hvs, has⟩ := List.find?_eq_some.1 h
  refine List.find?_eq_some.2 ⟨?_, as, bs, hvs, fun a ha' => ?_⟩
  · simpa only [decide_eq_true_eq] using ⟨hne, (occursAt_congr_take ht).2 huocc⟩
  · have := has a ha'
    simp only [Bool.not_eq_true', decide_eq_false_iff_not, not_and, not_not] at this ⊢
    exact fun hne' ha'' => this hne' (occursAt_of_marked (hus a (hvs ▸ List.mem_append_left _ ha')) hm ha'')

theorem substitute_no_vars (s : List Char) : substitute [] s = s := by
  rw [@substitute_take [] s.length s fun _ _ => rfl, List.take_length, List.drop_length, substitute_nil,
    List.append_nil]

theorem not_occursAt_mark {key : List Char} (hk : key ≠ []) (hu : '_' ∉ key) (r : List Char) :
    ¬ OccursAt key ('_' :: r) := by
  obtain ⟨d, ds, rfl⟩ := List.exists_cons_of_ne_nil hk
  simp only [OccursAt, List.map_cons, List.cons_prefix_cons, not_and]
  exact fun h => absurd (toLower_eq_of_lt (h.trans (show '_'.toLower = '_' by decide)) (by decide) ▸
    List.mem_cons_self _ _) hu

theorem substitute_cons_length {v : Variable} {vs : List Variable} (hv : v.key ≠ [])
    (hus : ∀ u ∈ vs, '_' ∉ u.key) : ∀ s : List Char, Apart (v :: vs) s →
      ((substitute (v :: vs) s).length : Int) =
        (markKey v.key s).2 * ((v.value.length : Int) - v.key.length) + (substitute vs (markKey v.key s).1).length
  | [], _ => by simp
  | c :: cs, ha => by
      have hvm : v ∈ v :: vs := List.mem_cons_self _ _
      have hmark := @markKey_marked v.key (c :: cs)
      by_cases hocc : OccursAt v.key (c :: cs)
      · have hk := hocc.length_le
        have hpos := List.length_pos.2 hv
        have ih := substitute_cons_length hv hus ((c :: cs).drop v.key.length) (ha.drop _)
        have hmk := markKey_cons_of_occurs hv hocc
        have hA : ('_' :: cs.take (v.key.length - 1)).length = v.key.length := by
          simp only [List.length_cons, List.length_take]; simp only [List.length_cons] at hk; omega
        rw [hmk] at hmark
        have hnone : ∀ j < v.key.length,
            keyAt vs (('_' :: cs.take (v.key.length - 1) ++ (markKey v.key ((c :: cs).drop v.key.length)).1).drop j) =
              none := by
          intro j hj
          refine keyAt_eq_none fun u hu hne hju => ?_
          rcases Nat.eq_zero_or_pos j with rfl | hj0
          · exact not_occursAt_mark hne (hus u hu) _ (by simpa using hju)
          · have := ha v hvm u (List.mem_cons_of_mem _ hu) j (by omega) 0 hj0 (by simpa using hocc)
              (occursAt_of_marked (hus u hu) (List.forall₂_drop j hmark) hju)
            omega
        rw [substitute_some (by rw [keyAt_cons, if_pos ⟨hv, hocc⟩]), hmk, substitute_take _ _ hnone,
          List.take_left' hA, List.drop_left' hA]
        have hA' : ((cs.take (v.key.length - 1)).length : Int) = v.key.length - 1 := by
          simp only [List.length_cons] at hA; omega
        simp only [List.length_append, List.length_cons, Nat.cast_add, Nat.cast_one, ih, hA']
        ring
      · have hvs : keyAt (v :: vs) (c :: cs) = keyAt vs (c :: cs) := by rw [keyAt_cons, if_neg fun h => hocc h.2]
        cases hku : keyAt vs (c :: cs) with
        | none =>
            rw [markKey_cons_of_not hocc] at hmark ⊢
            rw [substitute_none (hvs.trans hku), substitute_none (keyAt_none_of_marked hus hmark hku)]
            simp only [List.length_cons, Nat.cast_add, Nat.cast_one, substitute_cons_length hv hus cs (ha.drop 1)]
            ring
        | some u =>
            obtain ⟨hu, hne, huocc⟩ := keyAt_some hku
            have hk := huocc.length_le
            have hbefore : ∀ j < u.key.length, ¬ OccursAt v.key ((c :: cs).drop j) := by
              intro j hj hj'
              rcases Nat.eq_zero_or_pos j with rfl | hj0
              · exact hocc hj'
              · have := ha u (List.mem_cons_of_mem _ hu) v hvm j (by omega) 0 hj0 (by simpa using huocc) hj'
                omega
            have hmt := markKey_take u.key.length (c :: cs) hbefore
            have hA : ((c :: cs).take u.key.length).length = u.key.length := by simp only [List.length_take]; omega
            rw [hmt] at hmark ⊢
            rw [substitute_some (hvs.trans hku), substitute_some (keyAt_some_of_marked hus hmark (List.take_left' hA) hku),
              List.drop_left' hA]
            simp only [List.length_append, Nat.cast_add,
              substitute_cons_length hv hus ((c :: cs).drop u.key.length) (ha.drop _)]
            ring
termination_by s => s.length
decreasing_by
  all_goals simp only [List.length_drop, List.length_cons]
  all_goals first | omega | exact Nat.sub_lt (Nat.succ_pos _) (List.length_pos.2 hv) | exact Nat.sub_lt (Nat.succ_pos _) (List.length_pos.2 hne)

theorem countPass_eq (stSize : Nat) : ∀ (vars : List Variable) (copy : List Char), '\x00' ∉ copy →
    copy.length ≤ stSize → (∀ v ∈ vars, v.key ≠ [] ∧ '\x00' ∉ v.key ∧ '_' ∉ v.key) → Apart vars copy →
      countPass stSize vars copy = (substitute vars copy).length - copy.length
  | [], copy, _, _, _, _ => by simp [countPass, substitute_no_vars]
  | v :: vs, copy, hc, hlen, hv, ha => by
      obtain ⟨hk, hnul, -⟩ := hv v (List.mem_cons_self _ _)
      have hvs : ∀ u ∈ vs, u.key ≠ [] ∧ '\x00' ∉ u.key ∧ '_' ∉ u.key := fun u hu => hv u (List.mem_cons_of_mem _ hu)
      have hcount : countKey v.key stSize (stSize + 1) copy 0 = markKey v.key copy := by
        rw [countKey_eq_markKey hk hnul _ copy 0 hc hlen (by omega)]; rfl
      have hm := @markKey_marked v.key copy
      rw [countPass, hcount, countPass_eq stSize vs _ (hm.not_mem (by decide) hc) (hm.length_eq.trans_le hlen) hvs
          ((ha.sub (List.subset_cons_self _ _)).marked (fun u hu => (hvs u hu).2.2) hm),
        substitute_cons_length hk (fun u hu => (hvs u hu).2.2) copy ha, hm.length_eq]
      ring

/-- Where no two occurrences of variable names in the file overlap (two
starting at the same byte apart) and no name holds `'_'`, the copy loop writes
exactly `st_size + extra_bytes` bytes: the counting pass sizes `new` right. -/
theorem apart_variables_fit (vars : List Variable) (hv : ∀ v ∈ vars, v.key ≠ [] ∧ '\x00' ∉ v.key ∧ '_' ∉ v.key)
    (buf : List Char) (ha : Apart vars buf) :
    ((replaceVariables vars buf).1.length : Int) = buf.length + extraBytes vars buf := by
  have hp := (cString_prefix_self buf).length_le
  rw [extraBytes, countPass_eq _ vars _ (cString_nul_free buf) hp hv (ha.shorten (cString_prefix_self buf)),
    replaceVariables,
    replaceLoop_eq_substitute (fun v hm => ⟨(hv v hm).1, (hv v hm).2.1⟩) buf _ 0 [] (by omega) (Nat.zero_le _)]
  simp only [List.nil_append, List.drop_zero, List.length_append, List.length_replicate]
  omega

theorem apart_variables_fit_ws :
    (∀ v ∈ ([⟨"$ws1".toList, "1".toList⟩, ⟨"$ws10".toList, "10".toList⟩] : List Variable),
        v.key ≠ [] ∧ '\x00' ∉ v.key ∧ '_' ∉ v.key) ∧
      Apart [⟨"$ws1".toList, "1".toList⟩, ⟨"$ws10".toList, "10".toList⟩] "ws $ws10 $ws1\n".toList ∧
      ((replaceVariables [⟨"$ws1".toList, "1".toList⟩, ⟨"$ws10".toList, "10".toList⟩] "ws $ws10 $ws1\n".toList).1.length : Int) =
        "ws $ws10 $ws1\n".toList.length +
          extraBytes [⟨"$ws1".toList, "1".toList⟩, ⟨"$ws10".toList, "10".toList⟩] "ws $ws10 $ws1\n".toList :=
  have hv : ∀ v ∈ ([⟨"$ws1".toList, "1".toList⟩, ⟨"$ws10".toList, "10".toList⟩] : List Variable),
      v.key ≠ [] ∧ '\x00' ∉ v.key ∧ '_' ∉ v.key := by decide
  have ha : Apart [⟨"$ws1".toList, "1".toList⟩, ⟨"$ws10".toList, "10".toList⟩] "ws $ws10 $ws1\n".toList := by decide
  ⟨hv, ha, apart_variables_fit _ hv _ ha⟩

end I3Config.Allocation

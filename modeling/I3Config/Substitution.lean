import I3Config.Variables

namespace I3Config.Substitution

open CString Variables

def OccursAt (key s : List Char) : Prop := key.map Char.toLower <+: s.map Char.toLower

instance (key s : List Char) : Decidable (OccursAt key s) := inferInstanceAs (Decidable (_ <+: _))

theorem OccursAt.length_le {key s : List Char} (h : OccursAt key s) : key.length ≤ s.length := by
  simpa using List.IsPrefix.length_le h

theorem OccursAt.extend {key s t : List Char} (h : OccursAt key s) (hst : s <+: t) : OccursAt key t :=
  h.trans (hst.map Char.toLower)

theorem prefix_drop {s t : List Char} (h : s <+: t) (n : Nat) : s.drop n <+: t.drop n := by
  obtain ⟨u, rfl⟩ := h
  rw [List.drop_append_eq_append_drop]
  exact List.prefix_append _ _

theorem not_occursAt_nil {key : List Char} (hk : key ≠ []) : ¬ OccursAt key [] := fun h =>
  hk (List.map_eq_nil_iff.1 (List.eq_nil_of_prefix_nil h))

theorem OccursAt.length_le_of_lf {key s : List Char} (hlf : '\n' ∉ key) (h : OccursAt key (s ++ ['\n'])) :
    key.length ≤ s.length := by
  have hle := h.length_le
  rw [List.length_append, List.length_singleton] at hle
  refine Nat.le_of_lt_succ (lt_of_le_of_ne hle fun heq => hlf ?_)
  have hmap := List.IsPrefix.eq_of_length h (by simpa using heq)
  have hmem : '\n'.toLower ∈ key.map Char.toLower := by simp [hmap]
  obtain ⟨c, hc, hlow⟩ := List.mem_map.1 hmem
  exact toLower_eq_of_lt (hlow.trans (show '\n'.toLower = '\n' by decide)) (by decide) ▸ hc

theorem strncasecmp_iff_occursAt {key : List Char} (hk : '\x00' ∉ key) :
    ∀ s, strncasecmp s key key.length = true ↔ OccursAt key s := by
  induction key with
  | nil => simp [strncasecmp, OccursAt]
  | cons d ds ih =>
      have hd : d ≠ '\x00' := fun h => hk (h ▸ List.mem_cons_self _ _)
      have hlow : d.toLower ≠ '\x00' := fun h => hd (toLower_eq_nul h)
      intro s
      cases s with
      | nil =>
          simp only [strncasecmp, cAt_nil, cAt_cons_zero, OccursAt, List.map_cons, List.map_nil,
            List.prefix_nil, reduceCtorEq, iff_false, Bool.and_eq_true, decide_eq_true_eq, not_and]
          exact fun h => absurd (h.symm.trans (by decide)) hlow
      | cons c cs =>
          have ih := ih (fun h => hk (List.mem_cons_of_mem _ h)) cs
          simp only [OccursAt] at ih
          simp only [strncasecmp, cAt_cons_zero, List.tail_cons, OccursAt, List.map_cons, List.cons_prefix_cons,
            Bool.and_eq_true, decide_eq_true_eq, Bool.or_eq_true, ih]
          constructor
          · rintro ⟨h, rfl | h'⟩
            · exact absurd (h.symm.trans (by decide)) hlow
            · exact ⟨h.symm, h'⟩
          · rintro ⟨h, h'⟩
            exact ⟨h.symm, .inr h'⟩

section Search

variable {key : List Char} (hk : key ≠ []) (hnul : '\x00' ∉ key)
include hk hnul

omit hk in
theorem strcasestr_cons (c : Char) (cs : List Char) :
    strcasestr key (c :: cs) = if OccursAt key (c :: cs) then some 0 else (strcasestr key cs).map (· + 1) := by
  simp only [strcasestr, strncasecmp_iff_occursAt hnul]

theorem strcasestr_some : ∀ {s : List Char} {m : Nat}, strcasestr key s = some m →
    OccursAt key (s.drop m) ∧ ∀ j < m, ¬ OccursAt key (s.drop j)
  | [], m, h => by simp [strcasestr, hk] at h
  | c :: cs, m, h => by
      rw [strcasestr_cons hnul] at h
      split_ifs at h with hc
      · cases h; exact ⟨hc, fun j hj => absurd hj (Nat.not_lt_zero j)⟩
      · obtain ⟨m', hm', rfl⟩ := Option.map_eq_some'.1 h
        obtain ⟨hocc, hbefore⟩ := strcasestr_some hm'
        refine ⟨hocc, fun j hj => ?_⟩
        cases j with
        | zero => exact hc
        | succ j => exact hbefore j (by omega)

theorem strcasestr_none : ∀ {s : List Char}, strcasestr key s = none → ∀ j, ¬ OccursAt key (s.drop j)
  | [], _, j => by simpa using not_occursAt_nil hk
  | c :: cs, h, j => by
      rw [strcasestr_cons hnul] at h
      split_ifs at h with hc
      cases j with
      | zero => exact hc
      | succ j => exact strcasestr_none (Option.map_eq_none'.1 h) j

theorem strcasestr_le_of_occursAt {s : List Char} {j : Nat} (h : OccursAt key (s.drop j)) :
    ∃ m, strcasestr key s = some m ∧ m ≤ j := by
  cases hs : strcasestr key s with
  | none => exact absurd h (strcasestr_none hk hnul hs j)
  | some m => exact ⟨m, rfl, Nat.le_of_not_lt fun hlt => (strcasestr_some hk hnul hs).2 j hlt h⟩

end Search

theorem nearest_cases (rest : List Char) : ∀ (vars : List Variable) (distance : Nat) (best : Option Variable),
    (nearest rest vars distance best = (distance, best) ∧
      ∀ u ∈ vars, ∀ m, strcasestr u.key rest = some m → distance ≤ m) ∨
    ∃ pre v post m, vars = pre ++ v :: post ∧ nearest rest vars distance best = (m, some v) ∧
      m < distance ∧ strcasestr v.key rest = some m ∧
      (∀ u ∈ pre, ∀ m', strcasestr u.key rest = some m' → m < m') ∧
      (∀ u ∈ post, ∀ m', strcasestr u.key rest = some m' → m ≤ m')
  | [], _, _ => .inl ⟨rfl, by simp⟩
  | v :: vs, d, b => by
      have skip : (strcasestr v.key rest = none ∨ ∃ m₀, strcasestr v.key rest = some m₀ ∧ d ≤ m₀) →
          nearest rest (v :: vs) d b = nearest rest vs d b := by
        rintro (hs | ⟨m₀, hs, hle⟩)
        · simp [nearest, hs]
        · simp [nearest, hs, Nat.not_lt.2 hle]
      cases hs : strcasestr v.key rest with
      | some m₀ =>
          by_cases hlt : m₀ < d
          · have hn : nearest rest (v :: vs) d b = nearest rest vs m₀ (some v) := by simp [nearest, hs, hlt]
            rcases nearest_cases rest vs m₀ (some v) with ⟨h, hall⟩ | ⟨pre, w, post, m, rfl, h, hm, hw, hpre, hpost⟩
            · exact .inr ⟨[], v, vs, m₀, rfl, hn.trans h, hlt, hs, by simp, hall⟩
            · refine .inr ⟨v :: pre, w, post, m, rfl, hn.trans h, by omega, hw, ?_, hpost⟩
              simp only [List.mem_cons, forall_eq_or_imp, hs, Option.some.injEq, forall_eq']
              exact ⟨hm, hpre⟩
          · rw [skip (.inr ⟨m₀, hs, Nat.le_of_not_lt hlt⟩)]
            rcases nearest_cases rest vs d b with ⟨h, hall⟩ | ⟨pre, w, post, m, rfl, h, hm, hw, hpre, hpost⟩
            · refine .inl ⟨h, ?_⟩
              simp only [List.mem_cons, forall_eq_or_imp, hs, Option.some.injEq, forall_eq']
              exact ⟨Nat.le_of_not_lt hlt, hall⟩
            · refine .inr ⟨v :: pre, w, post, m, rfl, h, hm, hw, ?_, hpost⟩
              simp only [List.mem_cons, forall_eq_or_imp, hs, Option.some.injEq, forall_eq']
              exact ⟨by omega, hpre⟩
      | none =>
          rw [skip (.inl hs)]
          rcases nearest_cases rest vs d b with ⟨h, hall⟩ | ⟨pre, w, post, m, rfl, h, hm, hw, hpre, hpost⟩
          · exact .inl ⟨h, by simpa [hs] using hall⟩
          · exact .inr ⟨v :: pre, w, post, m, rfl, h, hm, hw, by simpa [hs] using hpre, hpost⟩

def keyAt (vars : List Variable) (s : List Char) : Option Variable :=
  vars.find? fun v => v.key ≠ [] ∧ OccursAt v.key s

theorem keyAt_some {vars : List Variable} {s : List Char} {v : Variable} (h : keyAt vars s = some v) :
    v ∈ vars ∧ v.key ≠ [] ∧ OccursAt v.key s := by
  have := List.find?_some h
  simp only [decide_eq_true_eq, Bool.and_eq_true, Bool.not_eq_true', decide_eq_false_iff_not] at this
  exact ⟨List.mem_of_find?_eq_some h, this⟩

/-- What the copy loop is for: the text read from left to right with each
occurrence of a key replaced by its value, the earliest variable of the list
where several keys start at the same byte. -/
def substitute (vars : List Variable) : List Char → List Char
  | [] => []
  | c :: cs =>
      match _hv : keyAt vars (c :: cs) with
      | some v => v.value ++ substitute vars ((c :: cs).drop v.key.length)
      | none => c :: substitute vars cs
termination_by s => s.length
decreasing_by
  · have := List.length_pos.2 (keyAt_some ‹_›).2.1
    simp only [List.length_drop, List.length_cons]; omega
  · simp

section Spec

variable {vars : List Variable}

@[simp] theorem substitute_nil : substitute vars [] = [] := by rw [substitute]

theorem substitute_none {c : Char} {cs : List Char} (h : keyAt vars (c :: cs) = none) :
    substitute vars (c :: cs) = c :: substitute vars cs := by
  rw [substitute]; split <;> simp_all

theorem substitute_some {s : List Char} {v : Variable} (h : keyAt vars s = some v) :
    substitute vars s = v.value ++ substitute vars (s.drop v.key.length) := by
  cases s with
  | nil => exact absurd (keyAt_some h).2.2 (not_occursAt_nil (keyAt_some h).2.1)
  | cons c cs => rw [substitute]; split <;> simp_all

theorem substitute_take : ∀ (m : Nat) (s : List Char), (∀ j < m, keyAt vars (s.drop j) = none) →
    substitute vars s = s.take m ++ substitute vars (s.drop m)
  | 0, _, _ => rfl
  | _ + 1, [], _ => by simp
  | m + 1, c :: cs, h => by
      rw [substitute_none (h 0 (Nat.succ_pos m)),
        substitute_take m cs fun j hj => by simpa using h (j + 1) (by omega)]
      rfl

theorem not_mem_substitute {c : Char} (hv : ∀ v ∈ vars, c ∉ v.value) :
    ∀ {s : List Char}, c ∉ s → c ∉ substitute vars s
  | [], _ => by simp
  | d :: ds, hs => by
      have hds : c ∉ ds := fun h => hs (List.mem_cons_of_mem _ h)
      cases h : keyAt vars (d :: ds) with
      | none =>
          rw [substitute_none h, List.mem_cons, not_or]
          exact ⟨fun he => hs (he ▸ List.mem_cons_self _ _), not_mem_substitute hv hds⟩
      | some v =>
          obtain ⟨hvm, hne, -⟩ := keyAt_some h
          rw [substitute_some h, List.mem_append, not_or]
          exact ⟨hv v hvm, not_mem_substitute hv fun h' => hs (List.mem_of_mem_drop h')⟩
termination_by s => s.length
decreasing_by
  all_goals simp only [List.length_drop, List.length_cons]
  all_goals first | omega | exact Nat.sub_lt (Nat.succ_pos _) (List.length_pos.2 hne)

end Spec

section Copy

variable {vars : List Variable} (hv : ∀ v ∈ vars, v.key ≠ [] ∧ '\x00' ∉ v.key)
include hv

theorem keyAt_none_of_nearest {rest : List Char} {d : Nat} (h : (nearest rest vars d none).2 = none)
    (hd : rest.length ≤ d) (j : Nat) : keyAt vars (rest.drop j) = none := by
  rcases nearest_cases rest vars d none with ⟨-, hall⟩ | ⟨pre, v, post, m, -, hn, -⟩
  · refine List.find?_eq_none.2 fun u hu hp => ?_
    simp only [decide_eq_true_eq] at hp
    obtain ⟨m, hs, -⟩ := strcasestr_le_of_occursAt (hv u hu).1 (hv u hu).2 hp.2
    have := strcasestr_bound (hv u hu).2 hs
    have := List.length_pos.2 (hv u hu).1
    have := hall u hu m hs
    omega
  · simp [hn] at h

theorem keyAt_of_nearest {rest : List Char} {d m : Nat} {v : Variable} (h : nearest rest vars d none = (m, some v)) :
    keyAt vars (rest.drop m) = some v ∧ ∀ j < m, keyAt vars (rest.drop j) = none := by
  rcases nearest_cases rest vars d none with ⟨hn, -⟩ | ⟨pre, w, post, m', rfl, hn, -, hw, hpre, hpost⟩
  · simp [hn] at h
  rw [hn, Prod.mk.injEq, Option.some.injEq] at h
  obtain ⟨rfl, rfl⟩ := h
  have first : ∀ u ∈ pre ++ w :: post, ∀ j, OccursAt u.key (rest.drop j) → m' ≤ j ∧ (u ∈ pre → m' < j) := by
    intro u hu j hj
    obtain ⟨mu, hs, hle⟩ := strcasestr_le_of_occursAt (hv u hu).1 (hv u hu).2 hj
    rcases List.mem_append.1 hu with hp | hp
    · have := hpre u hp mu hs; exact ⟨by omega, fun _ => by omega⟩
    · refine ⟨?_, fun hp' => ?_⟩
      · rcases List.mem_cons.1 hp with rfl | hp
        · rw [hw] at hs; cases hs; exact hle
        · have := hpost u hp mu hs; omega
      · have := hpre u hp' mu hs; omega
  have hmem : w ∈ pre ++ w :: post := by simp
  refine ⟨List.find?_eq_some.2 ⟨?_, pre, post, rfl, fun u hu => ?_⟩,
    fun j hj => List.find?_eq_none.2 fun u hu hp => ?_⟩
  · simpa using ⟨(hv w hmem).1, (strcasestr_some (hv w hmem).1 (hv w hmem).2 hw).1⟩
  · simp only [Bool.not_eq_true', decide_eq_false_iff_not, not_and, not_not]
    exact fun _ hocc => absurd ((first u (List.mem_append_left _ hu) m' hocc).2 hu) (Nat.lt_irrefl m')
  · simp only [decide_eq_true_eq] at hp
    exact absurd (first u hu j hp.2).1 (by omega)

theorem replaceLoop_eq_substitute (buf : List Char) : ∀ fuel walk (dest : List Char),
    buf.length - walk < fuel → walk ≤ (cString buf).length →
      (replaceLoop vars buf fuel walk dest).1 = dest ++ substitute vars ((cString buf).drop walk) ++
        List.replicate (buf.length - (cString buf).length) '\x00'
  | 0, _, _, h, _ => absurd h (Nat.not_lt_zero _)
  | fuel + 1, walk, dest, hf, hw => by
      have hp := (cString_prefix_self buf).length_le
      rw [replaceLoop]
      by_cases hlt : walk < buf.length
      · rw [if_pos hlt, cString_drop hw]
        rcases hn : nearest ((cString buf).drop walk) vars buf.length none with ⟨m, _ | v⟩
        · have hnone := keyAt_none_of_nearest hv (by rw [hn]) (by rw [List.length_drop]; omega)
          have := @substitute_take vars ((cString buf).drop walk).length _ fun j _ => hnone j
          rw [List.take_length, List.drop_length, substitute_nil, List.append_nil] at this
          rw [this, strncpy_rest hw, List.append_assoc]
        · obtain ⟨hat, hbefore⟩ := keyAt_of_nearest hv hn
          have hpos := List.length_pos.2 (keyAt_some hat).2.1
          have hb := (keyAt_some hat).2.2.length_le
          simp only [List.drop_drop, List.length_drop] at hb
          rw [replaceLoop_eq_substitute buf fuel _ _ (by omega) (by omega), strncpy_drop (by omega),
            substitute_take m _ hbefore, substitute_some hat]
          simp only [List.drop_drop, List.append_assoc, Nat.add_comm, Nat.add_left_comm]
      · rw [if_neg hlt, List.drop_of_length_le (by omega), substitute_nil, Nat.sub_eq_zero_of_le (by omega)]
        simp

theorem replaceLoop_terminated (hlf : ∀ v ∈ vars, '\n' ∉ v.key) (body : List Char) :
    ∀ fuel walk (dest : List Char), body.length + 1 - walk < fuel → walk < body.length + 1 →
      (replaceLoop vars (body ++ ['\n']) fuel walk dest).2 = true
  | 0, _, _, h, _ => absurd h (Nat.not_lt_zero _)
  | fuel + 1, walk, dest, hf, hw => by
      have hlen : (body ++ ['\n']).length = body.length + 1 := by simp
      rw [replaceLoop, if_pos (by omega)]
      rcases hn : nearest (cString ((body ++ ['\n']).drop walk)) vars (body ++ ['\n']).length none with ⟨m, _ | v⟩
      · rfl
      · obtain ⟨hat, -⟩ := keyAt_of_nearest hv hn
        obtain ⟨hmem, hne, hocc⟩ := keyAt_some hat
        replace hocc := hocc.extend (prefix_drop (cString_prefix_self _) m)
        have hpos := List.length_pos.2 hne
        have hb := hocc.length_le
        simp only [List.drop_drop, List.length_drop, hlen] at hb
        rw [List.drop_drop, List.drop_append_of_le_length (by omega)] at hocc
        have := hocc.length_le_of_lf (hlf v hmem)
        simp only [List.length_drop] at this
        exact replaceLoop_terminated hlf body fuel _ _ (by omega) (by omega)

end Copy

/-- The copy loop of `parse_file` writes the file up to its first NUL with
every occurrence of a key replaced, from left to right, the earliest variable
of the list winning where keys start at the same byte; `strncpy` fills the
rest of the file's length with NULs. -/
theorem replaceVariables_eq_substitute (vars : List Variable) (hv : ∀ v ∈ vars, v.key ≠ [] ∧ '\x00' ∉ v.key)
    (buf : List Char) : (replaceVariables vars buf).1 =
      substitute vars (cString buf) ++ List.replicate (buf.length - (cString buf).length) '\x00' := by
  rw [replaceVariables, replaceLoop_eq_substitute hv buf _ 0 [] (by omega) (Nat.zero_le _), List.nil_append,
    List.drop_zero]

theorem replaceVariables_eq_substitute_mod :
    (∀ v ∈ ([⟨"$mod".toList, "Mod4".toList⟩, ⟨"$m".toList, "x".toList⟩] : List Variable),
        v.key ≠ [] ∧ '\x00' ∉ v.key) ∧
      (replaceVariables [⟨"$mod".toList, "Mod4".toList⟩, ⟨"$m".toList, "x".toList⟩] "bindsym $mod+$m\x00$m".toList).1 =
        substitute [⟨"$mod".toList, "Mod4".toList⟩, ⟨"$m".toList, "x".toList⟩] (cString "bindsym $mod+$m\x00$m".toList) ++
          List.replicate ("bindsym $mod+$m\x00$m".toList.length - (cString "bindsym $mod+$m\x00$m".toList).length) '\x00' :=
  ⟨by decide, replaceVariables_eq_substitute _ (by decide) _⟩

/-- A file that ends in a line feed always gets its terminating NUL when no key
holds a line feed. -/
theorem replaceVariables_terminated (vars : List Variable) (hv : ∀ v ∈ vars, v.key ≠ [] ∧ '\x00' ∉ v.key)
    (hlf : ∀ v ∈ vars, '\n' ∉ v.key) (body : List Char) : (replaceVariables vars (body ++ ['\n'])).2 = true := by
  rw [replaceVariables]
  exact replaceLoop_terminated hv hlf body _ 0 [] (by simp) (by omega)

theorem replaceVariables_terminated_mod :
    (∀ v ∈ ([⟨"$a".toList, "x".toList⟩] : List Variable), v.key ≠ [] ∧ '\x00' ∉ v.key) ∧
      (∀ v ∈ ([⟨"$a".toList, "x".toList⟩] : List Variable), '\n' ∉ v.key) ∧
      (replaceVariables [⟨"$a".toList, "x".toList⟩] ("set $a x\n$a".toList ++ ['\n'])).2 = true :=
  ⟨by decide, by decide, replaceVariables_terminated _ (by decide) (by decide) _⟩

theorem strncasecmp_congr_right : ∀ {a b b' : List Char} (n : Nat), b.map Char.toLower = b'.map Char.toLower →
    strncasecmp a b n = strncasecmp a b' n
  | _, _, _, 0, _ => rfl
  | _, [], [], _ + 1, _ => rfl
  | _, d :: ds, d' :: ds', n + 1, h => by
      simp only [List.map_cons, List.cons.injEq] at h
      simp only [strncasecmp, cAt_cons_zero, List.tail_cons, h.1, strncasecmp_congr_right n h.2]
  | _, [], _ :: _, _ + 1, h | _, _ :: _, [], _ + 1, h => by simp at h

theorem strcasestr_congr {key key' : List Char} (h : key.map Char.toLower = key'.map Char.toLower) :
    ∀ s, strcasestr key s = strcasestr key' s
  | [] => by
      have : key = [] ↔ key' = [] := by rw [← List.map_eq_nil_iff (f := Char.toLower), h, List.map_eq_nil_iff]
      simp only [strcasestr, this]
  | c :: cs => by
      have hl : key.length = key'.length := by simpa using congrArg List.length h
      simp only [strcasestr, hl, strncasecmp_congr_right _ h, strcasestr_congr h cs]

theorem nearest_append (rest : List Char) : ∀ (l₁ l₂ : List Variable) (d : Nat) (b : Option Variable),
    nearest rest (l₁ ++ l₂) d b = nearest rest l₂ (nearest rest l₁ d b).1 (nearest rest l₁ d b).2
  | [], _, _, _ => rfl
  | v :: vs, l₂, d, b => by
      simp only [List.cons_append, nearest]
      cases strcasestr v.key rest with
      | none => exact nearest_append rest vs l₂ d b
      | some m =>
          by_cases h : m < d
          · simp only [if_pos h]; exact nearest_append rest vs l₂ _ _
          · simp only [if_neg h]; exact nearest_append rest vs l₂ _ _

theorem nearest_fst_le (rest : List Char) (l : List Variable) (d : Nat) (b : Option Variable) :
    (nearest rest l d b).1 ≤ d ∧ ∀ u ∈ l, ∀ m, strcasestr u.key rest = some m → (nearest rest l d b).1 ≤ m := by
  rcases nearest_cases rest l d b with ⟨h, hall⟩ | ⟨pre, v, post, m, rfl, h, hlt, hv, hpre, hpost⟩
  · rw [h]; exact ⟨le_rfl, hall⟩
  · rw [h]
    refine ⟨hlt.le, fun u hu m' hs => ?_⟩
    rcases List.mem_append.1 hu with hp | hp
    · exact (hpre u hp m' hs).le
    · rcases List.mem_cons.1 hp with rfl | hp
      · rw [hv] at hs; cases hs; exact le_rfl
      · exact hpost u hp m' hs

theorem nearest_shadowed (rest : List Char) {pre : List Variable} {u v : Variable} (hu : u ∈ pre)
    (h : strcasestr u.key rest = strcasestr v.key rest) (post : List Variable) (d : Nat) (b : Option Variable) :
    nearest rest (pre ++ v :: post) d b = nearest rest (pre ++ post) d b := by
  rw [nearest_append, nearest_append]
  have hle := (nearest_fst_le rest pre d b).2 u hu
  cases hs : strcasestr v.key rest with
  | none => simp [nearest, hs]
  | some m => simp [nearest, hs, Nat.not_lt.2 (hle m (h.trans hs))]

theorem replaceLoop_shadowed {pre post : List Variable} {u v : Variable} (hu : u ∈ pre)
    (h : u.key.map Char.toLower = v.key.map Char.toLower) (buf : List Char) :
    ∀ fuel walk dest, replaceLoop (pre ++ v :: post) buf fuel walk dest = replaceLoop (pre ++ post) buf fuel walk dest
  | 0, _, _ => rfl
  | fuel + 1, walk, dest => by
      simp only [replaceLoop, nearest_shadowed _ hu (strcasestr_congr h _), replaceLoop_shadowed hu h buf fuel]

/-- Of two variables whose keys agree up to case, the copy loop only uses the
one ahead in the list: the other might as well be absent, for the bytes
written and for the NUL. -/
theorem replaceVariables_shadowed {pre post : List Variable} {u v : Variable} (hu : u ∈ pre)
    (h : u.key.map Char.toLower = v.key.map Char.toLower) (buf : List Char) :
    replaceVariables (pre ++ v :: post) buf = replaceVariables (pre ++ post) buf :=
  replaceLoop_shadowed hu h buf _ _ _

theorem replaceVariables_shadowed_case :
    (⟨"$a".toList, "new".toList⟩ : Variable) ∈ [⟨"$a".toList, "new".toList⟩] ∧
      "$a".toList.map Char.toLower = "$A".toList.map Char.toLower ∧
      replaceVariables ([⟨"$a".toList, "new".toList⟩] ++ [⟨"$A".toList, "old".toList⟩]) "x $A\n".toList =
        replaceVariables ([⟨"$a".toList, "new".toList⟩] ++ []) "x $A\n".toList :=
  have hu : (⟨"$a".toList, "new".toList⟩ : Variable) ∈ [⟨"$a".toList, "new".toList⟩] := by decide
  have h : "$a".toList.map Char.toLower = "$A".toList.map Char.toLower := by decide
  ⟨hu, h, replaceVariables_shadowed hu h _⟩

theorem occursAt_append_lf {key : List Char} (hlf : '\n' ∉ key) :
    ∀ {x : List Char}, x.getLast? = some '\n' → ∀ b, (OccursAt key (x ++ b) ↔ OccursAt key x)
  | [], hx, _ => by simp at hx
  | c :: cs, hx, b => by
      cases key with
      | nil => simp [OccursAt]
      | cons k ks =>
          have hk : k.toLower ≠ '\n' := fun h => hlf (toLower_eq_of_lt h (by decide) ▸ List.mem_cons_self _ _)
          rcases cs with _ | ⟨d, ds⟩
          · obtain rfl : c = '\n' := by simpa using hx
            simp [OccursAt, show '\n'.toLower = '\n' by decide, hk]
          · have ih := occursAt_append_lf (fun h => hlf (List.mem_cons_of_mem _ h)) (x := d :: ds)
              (by simpa using hx) b
            simp only [OccursAt, List.cons_append, List.map_cons, List.cons_prefix_cons] at ih ⊢
            rw [ih]

theorem keyAt_append_lf {vars : List Variable} (hlf : ∀ v ∈ vars, '\n' ∉ v.key) {x : List Char}
    (hx : x.getLast? = some '\n') (b : List Char) : keyAt vars (x ++ b) = keyAt vars x := by
  induction vars with
  | nil => rfl
  | cons v vs ih =>
      have ih' := ih fun u hu => hlf u (List.mem_cons_of_mem _ hu)
      simp only [keyAt] at ih' ⊢
      simp only [List.find?_cons, occursAt_append_lf (hlf v (List.mem_cons_self _ _)) hx b, ih']

theorem substitute_append_lf {vars : List Variable} (hv : ∀ v ∈ vars, v.key ≠ [] ∧ '\n' ∉ v.key) :
    ∀ {a : List Char}, a.getLast? = some '\n' → ∀ b, substitute vars (a ++ b) = substitute vars a ++ substitute vars b
  | [], ha, _ => by simp at ha
  | [c], ha, b => by
      obtain rfl : c = '\n' := by simpa using ha
      have hnone : keyAt vars ['\n'] = none := by
        cases h : keyAt vars ['\n'] with
        | none => rfl
        | some v =>
            obtain ⟨hvm, hne, hocc⟩ := keyAt_some h
            have := OccursAt.length_le_of_lf (s := []) (hv v hvm).2 hocc
            exact absurd (List.length_eq_zero.1 (Nat.le_zero.1 this)) hne
      have hk : keyAt vars ('\n' :: b) = none :=
        (keyAt_append_lf (fun v hv' => (hv v hv').2) ha b).trans hnone
      rw [List.singleton_append, substitute_none hk, substitute_none hnone, substitute_nil]
      rfl
  | c :: d :: ds, ha, b => by
      have hk := keyAt_append_lf (fun v hv' => (hv v hv').2) ha b
      cases hkey : keyAt vars (c :: d :: ds) with
      | none =>
          have hk' : keyAt vars (c :: (d :: ds ++ b)) = none := hk.trans hkey
          rw [List.cons_append, substitute_none hk', substitute_none hkey,
            substitute_append_lf hv (a := d :: ds) (by simpa using ha) b, List.cons_append]
      | some v =>
          obtain ⟨hvm, hne, hocc⟩ := keyAt_some hkey
          have hlt : v.key.length < (c :: d :: ds).length := by
            have h := OccursAt.length_le_of_lf (s := (c :: d :: ds).dropLast) (hv v hvm).2
              (by rwa [List.dropLast_append_getLast? _ ha])
            simp only [List.length_dropLast, List.length_cons] at h ⊢
            omega
          have hd : ((c :: d :: ds) ++ b).drop v.key.length = (c :: d :: ds).drop v.key.length ++ b :=
            List.drop_append_of_le_length hlt.le
          rw [substitute_some (hk.trans hkey), substitute_some hkey, hd,
            substitute_append_lf hv (by rw [List.getLast?_drop, if_neg (by omega), ha]) b, List.append_assoc]
termination_by a => a.length
decreasing_by
  all_goals simp only [List.length_drop, List.length_cons]
  all_goals first | omega | exact Nat.sub_lt (Nat.succ_pos _) (List.length_pos.2 hne)

/-- The copy loop of `parse_file` works line by line: no variable whose key
holds no line feed is replaced across a line feed, so the copy of `a ++ b`,
where `a` ends with a line feed, is the copy of `a` followed by the copy of
`b`. -/
theorem replaceVariables_append_lines (vars : List Variable)
    (hv : ∀ v ∈ vars, v.key ≠ [] ∧ '\x00' ∉ v.key ∧ '\n' ∉ v.key) {a : List Char} (ha : a.getLast? = some '\n')
    (hnul : '\x00' ∉ a) (b : List Char) :
    (replaceVariables vars (a ++ b)).1 = (replaceVariables vars a).1 ++ (replaceVariables vars b).1 := by
  have hsub : ∀ buf, (replaceVariables vars buf).1 =
      substitute vars (cString buf) ++ List.replicate (buf.length - (cString buf).length) '\x00' := fun buf => by
    rw [replaceVariables, replaceLoop_eq_substitute (fun v h => ⟨(hv v h).1, (hv v h).2.1⟩) buf _ 0 []
      (by omega) (Nat.zero_le _), List.nil_append, List.drop_zero]
  rw [hsub, hsub, hsub, cString_append_of_nul_free hnul, cString_of_nul_free hnul,
    substitute_append_lf (fun v h => ⟨(hv v h).1, (hv v h).2.2⟩) ha, Nat.sub_self, List.replicate_zero,
    List.append_nil, List.length_append, List.length_append, Nat.add_sub_add_left, List.append_assoc]

theorem replaceVariables_append_lines_mod :
    (∀ v ∈ ([⟨"$mod".toList, "Mod4".toList⟩] : List Variable), v.key ≠ [] ∧ '\x00' ∉ v.key ∧ '\n' ∉ v.key) ∧
      "bindsym $mod+1\n".toList.getLast? = some '\n' ∧ '\x00' ∉ "bindsym $mod+1\n".toList ∧
      (replaceVariables [⟨"$mod".toList, "Mod4".toList⟩] ("bindsym $mod+1\n".toList ++ "exec $mod\n".toList)).1 =
        (replaceVariables [⟨"$mod".toList, "Mod4".toList⟩] "bindsym $mod+1\n".toList).1 ++
          (replaceVariables [⟨"$mod".toList, "Mod4".toList⟩] "exec $mod\n".toList).1 :=
  have h : ∀ v ∈ ([⟨"$mod".toList, "Mod4".toList⟩] : List Variable),
      v.key ≠ [] ∧ '\x00' ∉ v.key ∧ '\n' ∉ v.key := by decide
  have ha : "bindsym $mod+1\n".toList.getLast? = some '\n' := by decide
  have hnul : '\x00' ∉ "bindsym $mod+1\n".toList := by decide
  ⟨h, ha, hnul, replaceVariables_append_lines _ h ha hnul _⟩

end I3Config.Substitution

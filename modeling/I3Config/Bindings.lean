import I3Config.CString

namespace I3Config.Bindings

open CString

/-- The fields of a `Binding` that the duplicate check compares; their types
are declared outside the parser, so they are parameters here. `symbol` is a C
string, so it holds no NUL. -/
structure Binding (K M R : Type) where
  keycode : K
  mods : M
  symbol : Option (List Char)
  release : R
  symbol_nul_free : ∀ s ∈ symbol, '\x00' ∉ s

/-- The part of `struct context` the check writes. -/
structure Context where
  hasErrors : Bool
  deriving DecidableEq, Repr

variable {K M R : Type} [DecidableEq K] [DecidableEq M] [DecidableEq R]

/-- The body of the inner loop: `true` where it reaches `has_errors = true`,
`false` at each `continue`. -/
def reportsDuplicate (bind current : Binding K M R) : Bool :=
  if bind.symbol.isNone && current.symbol.isSome || bind.symbol.isSome && current.symbol.isNone then false
  else if bind.symbol.isSome && !strcasecmp (bind.symbol.getD []) (current.symbol.getD []) then false
  else if bind.keycode ≠ current.keycode || bind.mods ≠ current.mods || bind.release ≠ current.release then false
  else true

/-- The inner `TAILQ_FOREACH` over the bindings ahead of `current`, where it
breaks. -/
def checkBefore (current : Binding K M R) : List (Binding K M R) → Context → Context
  | [], context => context
  | bind :: rest, context =>
      checkBefore current rest (if reportsDuplicate bind current then { context with hasErrors := true } else context)

/-- The outer `TAILQ_FOREACH`, with the bindings already passed. -/
def checkFrom : List (Binding K M R) → List (Binding K M R) → Context → Context
  | _, [], context => context
  | before, current :: rest, context => checkFrom (before ++ [current]) rest (checkBefore current before context)

def checkForDuplicateBindings (bindings : List (Binding K M R)) (context : Context) : Context :=
  checkFrom [] bindings context

/-- Two symbols name the same key: both absent, or equal up to ASCII case. -/
def SameSymbol : Option (List Char) → Option (List Char) → Prop
  | none, none => True
  | some a, some b => a.map Char.toLower = b.map Char.toLower
  | _, _ => False

/-- Two bindings of the same key: a duplicate in the sense of the comment
above `check_for_duplicate_bindings`. -/
def Duplicates (a b : Binding K M R) : Prop :=
  a.keycode = b.keycode ∧ a.mods = b.mods ∧ a.release = b.release ∧ SameSymbol a.symbol b.symbol

def HasDuplicate (bindings : List (Binding K M R)) : Prop :=
  ∃ i j, ∃ (hi : i < bindings.length) (hj : j < bindings.length), i ≠ j ∧ Duplicates bindings[i] bindings[j]

omit [DecidableEq K] [DecidableEq M] [DecidableEq R] in
theorem duplicates_comm {a b : Binding K M R} : Duplicates a b ↔ Duplicates b a := by
  rcases a with ⟨_, _, _ | _, _, _⟩ <;> rcases b with ⟨_, _, _ | _, _, _⟩ <;>
    simp only [Duplicates, SameSymbol] <;> tauto

theorem reportsDuplicate_iff (bind current : Binding K M R) :
    reportsDuplicate bind current = true ↔ Duplicates bind current := by
  rcases bind with ⟨k, m, _ | a, r, ha⟩ <;> rcases current with ⟨k', m', _ | b, r', hb⟩
  · simp [reportsDuplicate, Duplicates, SameSymbol, and_assoc]
  · simp [reportsDuplicate, Duplicates, SameSymbol]
  · simp [reportsDuplicate, Duplicates, SameSymbol]
  · simp only [reportsDuplicate, Duplicates, SameSymbol, ← strcasecmp_iff (ha a rfl) (hb b rfl)]
    by_cases h : strcasecmp a b = true <;> simp [h, and_assoc]

theorem checkBefore_eq (current : Binding K M R) : ∀ (before : List (Binding K M R)) (context : Context),
    checkBefore current before context =
      if before.any (reportsDuplicate · current) then { context with hasErrors := true } else context
  | [], _ => rfl
  | bind :: rest, context => by
      rw [checkBefore, checkBefore_eq current rest, List.any_cons]
      cases reportsDuplicate bind current <;> cases rest.any (reportsDuplicate · current) <;> rfl

theorem checkFrom_eq : ∀ (rest before : List (Binding K M R)) (context : Context),
    checkFrom before rest context =
      if rest.Pairwise (fun a b => reportsDuplicate a b = false) ∧
          ∀ c ∈ rest, ∀ b ∈ before, reportsDuplicate b c = false then context
      else { context with hasErrors := true }
  | [], _, context => by simp [checkFrom]
  | c :: rest, before, context => by
      have key : ((c :: rest).Pairwise (fun a b => reportsDuplicate a b = false) ∧
            ∀ x ∈ c :: rest, ∀ b ∈ before, reportsDuplicate b x = false) ↔
          (rest.Pairwise (fun a b => reportsDuplicate a b = false) ∧
            ∀ x ∈ rest, ∀ b ∈ before ++ [c], reportsDuplicate b x = false) ∧
          before.any (reportsDuplicate · c) = false := by
        simp only [List.pairwise_cons, List.forall_mem_cons, List.mem_append, List.mem_singleton, or_imp,
          forall_and, forall_eq, List.any_eq_false, Bool.not_eq_true]
        tauto
      rw [checkFrom, checkFrom_eq rest, checkBefore_eq, if_congr key rfl rfl]
      cases before.any (reportsDuplicate · c)
      · simp only [and_true, Bool.false_eq_true, if_false]
      · simp only [Bool.true_eq_false, and_false, if_true, if_false, ite_self]

theorem hasDuplicate_iff (bindings : List (Binding K M R)) :
    HasDuplicate bindings ↔ ¬ bindings.Pairwise (fun a b => reportsDuplicate a b = false) := by
  simp only [HasDuplicate, List.pairwise_iff_getElem, Bool.not_eq_true, ← reportsDuplicate_iff]
  constructor
  · rintro ⟨i, j, hi, hj, hne, hd⟩ h
    rcases Nat.lt_or_gt_of_ne hne with hlt | hlt
    · simp [h i j hi hj hlt] at hd
    · rw [reportsDuplicate_iff, duplicates_comm, ← reportsDuplicate_iff] at hd
      simp [h j i hj hi hlt] at hd
  · intro h
    push_neg at h
    obtain ⟨i, j, hi, hj, hlt, hd⟩ := h
    exact ⟨i, j, hi, hj, Nat.ne_of_lt hlt, by simpa using hd⟩

instance : DecidablePred (HasDuplicate (K := K) (M := M) (R := R)) :=
  fun bindings => decidable_of_iff _ (hasDuplicate_iff bindings).symm

/-- `check_for_duplicate_bindings` sets `has_errors` exactly when two bindings
at distinct positions are duplicates, and otherwise leaves the context as it
was. -/
theorem checkForDuplicateBindings_eq (bindings : List (Binding K M R)) (context : Context) :
    checkForDuplicateBindings bindings context =
      if HasDuplicate bindings then { context with hasErrors := true } else context := by
  rw [checkForDuplicateBindings, checkFrom_eq]
  by_cases h : HasDuplicate bindings
  · rw [if_pos h, if_neg]
    exact fun hp => (hasDuplicate_iff bindings).1 h hp.1
  · rw [if_neg h, if_pos]
    exact ⟨not_not.1 (mt (hasDuplicate_iff bindings).2 h), by simp⟩

theorem reportsDuplicate_comm (a b : Binding K M R) : reportsDuplicate a b = reportsDuplicate b a :=
  Bool.eq_iff_iff.2 (by rw [reportsDuplicate_iff, reportsDuplicate_iff, duplicates_comm])

/-- Although each binding is only compared with those ahead of it, the check
reaches the same verdict for every order of the same bindings. -/
theorem checkForDuplicateBindings_perm {bindings bindings' : List (Binding K M R)} (hp : bindings.Perm bindings')
    (context : Context) :
    checkForDuplicateBindings bindings context = checkForDuplicateBindings bindings' context := by
  have hpw := hp.pairwise_iff fun {a b} (h : reportsDuplicate a b = false) => (reportsDuplicate_comm b a).trans h
  simp only [checkForDuplicateBindings, checkFrom_eq, hpw, List.not_mem_nil, false_imp_iff, imp_true_iff, hp.mem_iff]

theorem checkForDuplicateBindings_perm_swap :
    [(⟨0, 0, some "a".toList, false, by simp⟩ : Binding Nat Nat Bool), ⟨0, 0, some "A".toList, false, by simp⟩].Perm
        [⟨0, 0, some "A".toList, false, by simp⟩, ⟨0, 0, some "a".toList, false, by simp⟩] ∧
      checkForDuplicateBindings [(⟨0, 0, some "a".toList, false, by simp⟩ : Binding Nat Nat Bool),
          ⟨0, 0, some "A".toList, false, by simp⟩] ⟨false⟩ =
        checkForDuplicateBindings [⟨0, 0, some "A".toList, false, by simp⟩, ⟨0, 0, some "a".toList, false, by simp⟩]
          ⟨false⟩ :=
  have hp : [(⟨0, 0, some "a".toList, false, by simp⟩ : Binding Nat Nat Bool), ⟨0, 0, some "A".toList, false, by simp⟩].Perm
      [⟨0, 0, some "A".toList, false, by simp⟩, ⟨0, 0, some "a".toList, false, by simp⟩] := List.Perm.swap _ _ _
  ⟨hp, checkForDuplicateBindings_perm hp _⟩

end I3Config.Bindings

import I3Config.CaptureWindow

namespace I3Config.StackRuns

open ValueStack CaptureWindow

/-- A call on the value stack. -/
inductive StackOp
  | pushString (identifier : String) (str : List Char)
  | pushLong (identifier : String) (num : Int)
  | clearStack
  deriving DecidableEq, Repr

variable {κ : Type}

def applyOp (S : CaptureStore κ) (k : κ) : StackOp → Except Stop κ
  | .pushString x v => S.pushString x v k
  | .pushLong x n => S.pushLong x n k
  | .clearStack => .ok (S.clear k)

def runStack (ops : List StackOp) : Except Stop Stack := ops.foldlM (applyOp stackStore) emptyStack

def windowStep (w : Window) : StackOp → Window
  | .pushString x v => w ++ [(x, .str v)]
  | .pushLong x n => w ++ [(x, .long n)]
  | .clearStack => []

def windowAfter (ops : List StackOp) : Window := ops.foldl windowStep []

theorem applyOp_represents {k : Stack} {w : Window} (h : Represents k w) :
    ∀ op, WindowOk (windowStep w op) → ∃ k', applyOp stackStore k op = .ok k' ∧ Represents k' (windowStep w op)
  | .pushString _ _, hok => represents_pushString h hok
  | .pushLong _ _, hok => represents_pushLong h hok
  | .clearStack, _ => ⟨_, rfl, represents_clear k⟩

theorem foldlM_represents : ∀ (ops : List StackOp) {k : Stack} {w : Window}, Represents k w →
    (∀ i ≤ ops.length, WindowOk ((ops.take i).foldl windowStep w)) →
    ∃ k', ops.foldlM (applyOp stackStore) k = .ok k' ∧ Represents k' (ops.foldl windowStep w)
  | [], k, _, h, _ => ⟨k, rfl, h⟩
  | op :: ops, _, _, h, hok => by
      obtain ⟨k₁, h₁, hr₁⟩ := applyOp_represents h op (by simpa using hok 1 (by simp))
      obtain ⟨k', h', hr'⟩ := foldlM_represents ops hr₁ fun i hi => by
        simpa using hok (i + 1) (by simpa using hi)
      exact ⟨k', by rw [List.foldlM_cons, h₁]; exact h', hr'⟩

/-- Calls that keep every window within the provisos never stop: the
occupied slots come first and hold distinct identifiers; `get_string` of an
identifier not pushed as a number returns the `','`-join of its strings (NULL
if none) and `get_long` of one not pushed as a string returns its number (0 if
none); otherwise each getter returns the other member of the union, a number
read as a pointer (NULL for 0) and the address of the joined strings. -/
theorem stack_holds_captures (ops : List StackOp)
    (hok : ∀ i ≤ ops.length, WindowOk (windowAfter (ops.take i))) :
    ∃ k, runStack ops = .ok k ∧
      (∃ occ : List (String × StackVal),
        k.slots = occ.map some ++ List.replicate (10 - occ.length) none ∧ (occ.map Prod.fst).Nodup) ∧
      (∀ x, longs x (windowAfter ops) = [] → getString k x =
        if strings x (windowAfter ops) = [] then .null
        else .chars ([','].intercalate (strings x (windowAfter ops)))) ∧
      (∀ x, strings x (windowAfter ops) = [] → getLong k x = .num ((longs x (windowAfter ops)).head?.getD 0)) ∧
      (∀ x n, longs x (windowAfter ops) = [n] → getString k x = if n = 0 then .null else .punned n) ∧
      (∀ x, strings x (windowAfter ops) ≠ [] →
        getLong k x = .address ([','].intercalate (strings x (windowAfter ops)))) := by
  obtain ⟨k, hrun, hk⟩ : ∃ k, runStack ops = .ok k ∧ Represents k (windowAfter ops) :=
    foldlM_represents ops represents_empty hok
  have ⟨occ, hslots, hnd, _⟩ := hk
  have hW : WindowOk (windowAfter ops) := by simpa using hok ops.length le_rfl
  refine ⟨k, hrun, ⟨occ, hslots, hnd⟩, fun x hl => ?_, fun x hs => ?_, fun x n hn => ?_, fun x hs => ?_⟩
  · rw [getString_of_represents hk, windowString, hl]
    cases strings x (windowAfter ops) <;> rfl
  · rw [getLong_of_represents hk, windowLong, hs]
    cases longs x (windowAfter ops) <;> rfl
  · have hx := (hW.2 x ((mem_ids x _).2 (.inr (by simp [hn])))).1
    have hs : strings x (windowAfter ops) = [] := hx.resolve_right (by simp [hn])
    rw [getString_of_represents hk, windowString, hs, hn]
  · rw [getLong_of_represents hk, windowLong]
    rcases h : strings x (windowAfter ops) with _ | ⟨v, vs⟩
    · exact absurd h hs
    · rfl

theorem stack_holds_captures_directive :
    (∀ i ≤ 5, WindowOk (windowAfter (([.pushString "x" ['a'], .pushString "x" ['b'], .pushLong "n" 3,
        .clearStack, .pushString "y" ['c']] : List StackOp).take i))) ∧
      ∃ k, runStack [.pushString "x" ['a'], .pushString "x" ['b'], .pushLong "n" 3, .clearStack,
          .pushString "y" ['c']] = .ok k ∧
        (∃ occ : List (String × StackVal),
          k.slots = occ.map some ++ List.replicate (10 - occ.length) none ∧ (occ.map Prod.fst).Nodup) ∧
        (∀ x, longs x [("y", .str ['c'])] = [] → getString k x =
          if strings x [("y", .str ['c'])] = [] then .null else .chars ([','].intercalate (strings x [("y", .str ['c'])]))) ∧
        (∀ x, strings x [("y", .str ['c'])] = [] → getLong k x = .num ((longs x [("y", .str ['c'])]).head?.getD 0)) ∧
        (∀ x n, longs x [("y", .str ['c'])] = [n] → getString k x = if n = 0 then .null else .punned n) ∧
        (∀ x, strings x [("y", .str ['c'])] ≠ [] →
          getLong k x = .address ([','].intercalate (strings x [("y", .str ['c'])]))) :=
  ⟨by decide, stack_holds_captures _ (by decide)⟩

/-- A number read back with `get_string`, and a string with `get_long`: each
getter returns the other member of the slot's union. -/
theorem getters_read_other_member :
    (∀ i ≤ 1, WindowOk (windowAfter ([.pushLong "x" 5].take i))) ∧
      strings "x" (windowAfter [.pushLong "x" 5]) = [] ∧
      (runStack [.pushLong "x" 5]).map (getString · "x") = .ok (.punned 5) ∧
      (∀ i ≤ 1, WindowOk (windowAfter ([.pushString "y" ['a']].take i))) ∧
      longs "y" (windowAfter [.pushString "y" ['a']]) = [] ∧
      (runStack [.pushString "y" ['a']]).map (getLong · "y") = .ok (.address ['a']) :=
  ⟨by decide, by decide, rfl, by decide, by decide, rfl⟩

end I3Config.StackRuns

import Mathlib.Data.List.Basic

namespace I3Config.ValueStack

/-- The value of a stack entry: the `val` union, read through its `type` tag. -/
inductive StackVal
  | str (s : List Char)
  | long (n : Int)
  deriving DecidableEq, Repr

abbrev Slot := Option (String × StackVal)

/-- The static `stack[10]` of identified values. -/
@[ext] structure Stack where
  slots : List Slot
  length_slots : slots.length = 10

/-- Why the main loop of `parse_config` stops short of the end of its input:
the `exit (1)` of a push onto a full stack, the failed
`assert (error_token_found)`, or a step whose behaviour C leaves undefined,
`next_state` writing a new state past `statelist[10]` or `push_string` reading
a number through the union as the pointer it appends to. -/
inductive Stop
  | stackFull
  | noErrorToken
  | trailOverflow
  | wildPointer
  deriving DecidableEq, Repr

/-- The loop of `push_string` over the slots: the first slot that is free or
holds the identifier takes the value; a held string gets `","` and the value
appended. A held number is `prev` read through the union: 0 is a NULL that
`sasprintf` prints as `(null)`, any other number a wild pointer. -/
def pushStringSlots (identifier : String) (str : List Char) : List Slot → Except Stop (List Slot)
  | [] => .error .stackFull
  | none :: rest => .ok (some (identifier, .str str) :: rest)
  | some (id, val) :: rest =>
      if id = identifier then
        match val with
        | .str prev => .ok (some (id, .str (prev ++ ',' :: str)) :: rest)
        | .long n =>
            if n = 0 then .ok (some (id, .str ("(null)".toList ++ ',' :: str)) :: rest) else .error .wildPointer
      else (pushStringSlots identifier str rest).map (some (id, val) :: ·)

/-- The loop of `push_long`: the first free slot takes the value. -/
def pushLongSlots (identifier : String) (num : Int) : List Slot → Except Stop (List Slot)
  | [] => .error .stackFull
  | none :: rest => .ok (some (identifier, .long num) :: rest)
  | some e :: rest => (pushLongSlots identifier num rest).map (some e :: ·)

/-- The loop shared by `get_string` and `get_long`: the value of the first
slot holding the identifier, searching no further than the first free slot. -/
def lookupSlots (identifier : String) : List Slot → Option StackVal
  | [] => none
  | none :: _ => none
  | some (id, val) :: rest => if identifier = id then some val else lookupSlots identifier rest

@[simp] theorem map_ok {α β : Type} (f : α → β) (a : α) : (Except.ok a : Except Stop α).map f = .ok (f a) := rfl

@[simp] theorem map_error {α β : Type} (f : α → β) (r : Stop) :
    (Except.error r : Except Stop α).map f = .error r := rfl

theorem map_eq_ok {α β : Type} {f : α → β} {e : Except Stop α} {b : β} (h : e.map f = .ok b) :
    ∃ a, e = .ok a ∧ b = f a := by
  cases e with
  | error _ => cases h
  | ok a => cases h; exact ⟨a, rfl, rfl⟩

theorem map_eq_error {α β : Type} {f : α → β} {e : Except Stop α} {r : Stop} (h : e.map f = .error r) :
    e = .error r := by
  cases e with
  | error _ => cases h; rfl
  | ok a => cases h

theorem pushStringSlots_length {x : String} {v : List Char} :
    ∀ {l l' : List Slot}, pushStringSlots x v l = .ok l' → l'.length = l.length
  | [], _, h => by cases h
  | none :: rest, _, h => by cases h; rfl
  | some (id, val) :: rest, l', h => by
      simp only [pushStringSlots] at h
      split_ifs at h
      · cases val with
        | str prev => cases h; rfl
        | long n => simp only at h; split_ifs at h; cases h; rfl
      · obtain ⟨l'', h'', rfl⟩ := map_eq_ok h
        simp [pushStringSlots_length h'']

theorem pushLongSlots_length {x : String} {n : Int} :
    ∀ {l l' : List Slot}, pushLongSlots x n l = .ok l' → l'.length = l.length
  | [], _, h => by cases h
  | none :: rest, _, h => by cases h; rfl
  | some e :: rest, l', h => by
      obtain ⟨l'', h'', rfl⟩ := map_eq_ok h
      simp [pushLongSlots_length h'']

theorem pushStringSlots_error {x : String} {v : List Char} :
    ∀ {l : List Slot} {r : Stop}, pushStringSlots x v l = .error r →
      (r = .stackFull ∧ ∀ s ∈ l, s.isSome) ∨ (r = .wildPointer ∧ ∃ n, n ≠ 0 ∧ lookupSlots x l = some (.long n))
  | [], _, h => by cases h; exact .inl ⟨rfl, by simp⟩
  | none :: rest, _, h => by cases h
  | some (id, val) :: rest, r, h => by
      simp only [pushStringSlots] at h
      split_ifs at h with hid
      · subst hid
        cases val with
        | str prev => cases h
        | long n =>
            simp only at h
            split_ifs at h with hn
            cases h
            exact .inr ⟨rfl, n, hn, by simp [lookupSlots]⟩
      · rcases pushStringSlots_error (map_eq_error h) with ⟨hr, hs⟩ | ⟨hr, n, hn, hl⟩
        · exact .inl ⟨hr, by simpa using hs⟩
        · exact .inr ⟨hr, n, hn, by simpa [lookupSlots, Ne.symm hid] using hl⟩

theorem pushLongSlots_error {x : String} {n : Int} :
    ∀ {l : List Slot} {r : Stop}, pushLongSlots x n l = .error r → r = .stackFull ∧ ∀ s ∈ l, s.isSome
  | [], _, h => by cases h; exact ⟨rfl, by simp⟩
  | none :: rest, _, h => by cases h
  | some e :: rest, r, h => by
      obtain ⟨hr, hs⟩ := pushLongSlots_error (map_eq_error h)
      exact ⟨hr, by simpa using hs⟩

def pushString (identifier : String) (str : List Char) (k : Stack) : Except Stop Stack :=
  match h : pushStringSlots identifier str k.slots with
  | .ok l => .ok ⟨l, (pushStringSlots_length h).trans k.length_slots⟩
  | .error r => .error r

def pushLong (identifier : String) (num : Int) (k : Stack) : Except Stop Stack :=
  match h : pushLongSlots identifier num k.slots with
  | .ok l => .ok ⟨l, (pushLongSlots_length h).trans k.length_slots⟩
  | .error r => .error r

def lookup (k : Stack) (identifier : String) : Option StackVal := lookupSlots identifier k.slots

/-- A `const char *` as `get_string` returns it: NULL, a string, or the `num`
member of a slot's union read through its `str` member. -/
inductive CStr
  | null
  | chars (s : List Char)
  | punned (n : Int)
  deriving DecidableEq, Repr

/-- A `long` as `get_long` returns it: a number, or the address of a string
read through the union's `num` member. -/
inductive CLong
  | num (n : Int)
  | address (s : List Char)
  deriving DecidableEq, Repr

/-- `val.str` of the slot a lookup finds, whatever the slot's `type`: a number
0 reads as NULL. -/
def readString : Option StackVal → CStr
  | none => .null
  | some (.str s) => .chars s
  | some (.long n) => if n = 0 then .null else .punned n

/-- `val.num` of the slot a lookup finds, whatever the slot's `type`. -/
def readLong : Option StackVal → CLong
  | none => .num 0
  | some (.long n) => .num n
  | some (.str s) => .address s

def getString (k : Stack) (identifier : String) : CStr := readString (lookup k identifier)

def getLong (k : Stack) (identifier : String) : CLong := readLong (lookup k identifier)

/-- All identifiers NULL: the zero-initialised stack and the result of `clear_stack`. -/
def emptyStack : Stack := ⟨List.replicate 10 none, rfl⟩

def clearStack (_ : Stack) : Stack := emptyStack

theorem pushString_slots {x : String} {v : List Char} {k k' : Stack} :
    pushString x v k = .ok k' ↔ pushStringSlots x v k.slots = .ok k'.slots := by
  unfold pushString
  split <;> rename_i h <;> simp only [h, Except.ok.injEq, reduceCtorEq, false_iff]
  exact ⟨fun e => e ▸ rfl, fun e => Stack.ext e⟩

theorem pushLong_slots {x : String} {n : Int} {k k' : Stack} :
    pushLong x n k = .ok k' ↔ pushLongSlots x n k.slots = .ok k'.slots := by
  unfold pushLong
  split <;> rename_i h <;> simp only [h, Except.ok.injEq, reduceCtorEq, false_iff]
  exact ⟨fun e => e ▸ rfl, fun e => Stack.ext e⟩

theorem pushString_error {x : String} {v : List Char} {k : Stack} {r : Stop} :
    pushString x v k = .error r ↔ pushStringSlots x v k.slots = .error r := by
  unfold pushString
  split <;> rename_i h <;> simp [h]

theorem pushLong_error {x : String} {n : Int} {k : Stack} {r : Stop} :
    pushLong x n k = .error r ↔ pushLongSlots x n k.slots = .error r := by
  unfold pushLong
  split <;> rename_i h <;> simp [h]

theorem pushString_of_slots {x : String} {v : List Char} {k : Stack} {l : List Slot}
    (h : pushStringSlots x v k.slots = .ok l) : ∃ k', pushString x v k = .ok k' ∧ k'.slots = l :=
  ⟨⟨l, (pushStringSlots_length h).trans k.length_slots⟩, pushString_slots.2 h, rfl⟩

theorem pushLong_of_slots {x : String} {n : Int} {k : Stack} {l : List Slot}
    (h : pushLongSlots x n k.slots = .ok l) : ∃ k', pushLong x n k = .ok k' ∧ k'.slots = l :=
  ⟨⟨l, (pushLongSlots_length h).trans k.length_slots⟩, pushLong_slots.2 h, rfl⟩

@[simp] theorem lookup_emptyStack (x : String) : lookup emptyStack x = none := rfl

/-- What a handler can read of the captured values: `get_string` and
`get_long` of every identifier. -/
abbrev View := String → Option StackVal

/-- The operations the driver performs on the captured values; `stackStore`
is the C stack. -/
structure CaptureStore (κ : Type) where
  empty : κ
  pushString : String → List Char → κ → Except Stop κ
  pushLong : String → Int → κ → Except Stop κ
  clear : κ → κ
  view : κ → View

def stackStore : CaptureStore Stack where
  empty := emptyStack
  pushString := pushString
  pushLong := pushLong
  clear := clearStack
  view := lookup

@[simp] theorem stackStore_clear (k : Stack) : stackStore.clear k = emptyStack := rfl

end I3Config.ValueStack

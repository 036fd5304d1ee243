import I3Config.CString
import Mathlib.Data.List.Basic

namespace I3Config.Variables

open CString

/-- A `set $name value` line: `key` is the name with its `$`. Both are the
contents of the C strings `sstrdup` made, so `strlen` is their length. -/
structure Variable where
  key : List Char
  value : List Char
  deriving DecidableEq, Repr

/-- One key's loop of the counting pass: from `next`, find the key in the C
string `bufcopy` holds, overwrite the match's first byte with `'_'` and step
over it. The result is the copy and the number of matches. The loop moves on by
`strlen (key)` each time, so `st_size + 1` rounds are enough for a key that is
not empty. -/
def countKey (key : List Char) (stSize : Nat) : Nat → List Char → Nat → List Char × Nat
  | 0, copy, _ => (copy, 0)
  | fuel + 1, copy, next =>
      if next < stSize then
        match strcasestr key (cString (copy.drop next)) with
        | some m => (countKey key stSize fuel (copy.set (next + m) '_') (next + m + key.length)).map id (· + 1)
        | none => (copy, 0)
      else (copy, 0)

/-- The counting pass: `extra_bytes`, summed over the variables in list order,
each key counted in the copy the earlier keys have marked. -/
def countPass (stSize : Nat) : List Variable → List Char → Int
  | [], _ => 0
  | v :: vs, copy =>
      (countKey v.key stSize (stSize + 1) copy 0).2 * ((v.value.length : Int) - v.key.length) +
        countPass stSize vs (countKey v.key stSize (stSize + 1) copy 0).1

/-- `extra_bytes`, counted in `bufcopy = sstrdup (buf)`, which stops at the
first NUL of the file. -/
def extraBytes (vars : List Variable) (buf : List Char) : Int := countPass buf.length vars (cString buf)

/-- The search for the nearest variable from `walk`: the smallest offset of a
match, the earliest variable of the list on a tie. -/
def nearest (rest : List Char) : List Variable → Nat → Option Variable → Nat × Option Variable
  | [], distance, best => (distance, best)
  | v :: vs, distance, best =>
      match strcasestr v.key rest with
      | some m => if m < distance then nearest rest vs m (some v) else nearest rest vs distance best
      | none => nearest rest vs distance best

/-- The copying loop: the bytes written to `new`, in order from its start, and
whether the loop wrote the terminating NUL. `strcasestr` searches the C string
at `walk`, and `strncpy` pads the rest of the file with NULs from the first NUL
on. -/
def replaceLoop (vars : List Variable) (buf : List Char) : Nat → Nat → List Char → List Char × Bool
  | 0, _, dest => (dest, false)
  | fuel + 1, walk, dest =>
      if walk < buf.length then
        match nearest (cString (buf.drop walk)) vars buf.length none with
        | (_, none) => (dest ++ strncpy (buf.drop walk) (buf.length - walk), true)
        | (distance, some v) =>
            replaceLoop vars buf fuel (walk + distance + v.key.length)
              (dest ++ strncpy (buf.drop walk) distance ++ v.value)
      else (dest, false)

def replaceVariables (vars : List Variable) (buf : List Char) : List Char × Bool :=
  replaceLoop vars buf (buf.length + 1) 0 []

theorem strcasestr_bound {key : List Char} (hnul : '\x00' ∉ key) :
    ∀ {l : List Char} {m : Nat}, strcasestr key l = some m → m + key.length ≤ l.length
  | [], m, h => by
      unfold strcasestr at h
      split_ifs at h with hk
      cases h; simp [hk]
  | c :: cs, m, h => by
      unfold strcasestr at h
      split_ifs at h with hm
      · cases h; simpa using strncasecmp_length_le hnul hm
      · obtain ⟨m', hm', rfl⟩ := Option.map_eq_some'.1 h
        have := strcasestr_bound hnul hm'
        simp only [List.length_cons]; omega

/-- The configuration `set $$a yyyyyy`, `set $a x`: `$a` matches inside
`$$a`, so the counting pass marks that match before `$$a` is counted. -/
def overlapFile : List Char := "set $$a yyyyyy\nset $a x\n".toList

def overlapVariables : List Variable := [⟨"$a".toList, "x".toList⟩, ⟨"$$a".toList, "yyyyyy".toList⟩]

/-- `new` is allocated `24 - 2 + 1 = 23` bytes, and the copying loop writes 26
bytes and the NUL; and a file that ends in a variable gets no NUL at all. -/
theorem replace_overruns_new :
    overlapFile.length = 24 ∧ extraBytes overlapVariables overlapFile = -2 ∧
      replaceVariables overlapVariables overlapFile = ("set yyyyyy yyyyyy\nset x x\n".toList, true) ∧
      replaceVariables [⟨"$a".toList, "x".toList⟩] "set $a x\n$a".toList = ("set x x\nx".toList, false) := by
  decide

end I3Config.Variables

import I3Config.Substitution
import I3Config.Version

namespace I3Config.Assignments

open CString Variables Substitution Version

/-- `fgets (buffer, n + 1, fstr)`: at most `n` bytes, up to and including a
line feed. The rest of the file is returned beside the line. -/
def fgets : Nat → List Char → List Char × List Char
  | 0, rest => ([], rest)
  | _ + 1, [] => ([], [])
  | n + 1, c :: cs => if c = '\n' then ([c], cs) else (fgets n cs).map (c :: ·) id

/-- The lines the `while (!feof (fstr))` loop reads with `fgets (buffer, 1024,
fstr)`. Each line takes a byte at least, so `fuel` rounds read a file of at
most `fuel` bytes. -/
def fgetsLines : Nat → List Char → List (List Char)
  | 0, _ => []
  | _ + 1, [] => []
  | fuel + 1, c :: cs => (fgets 1023 (c :: cs)).1 :: fgetsLines fuel (fgets 1023 (c :: cs)).2

/-- `sscanf (buffer, "%s %[^\n]", key, value)`: `none` where it returns `EOF`
(no word on the line); otherwise the word `%s` stores in `key` and, where the
line goes on past the white space after it, the text up to the line feed that
`%[^\n]` stores in `value`. -/
def sscanf (s : List Char) : Option (List Char × Option (List Char)) :=
  let word := s.dropWhile isspace
  let rest := (word.dropWhile (!isspace ·)).dropWhile isspace
  if word = [] then none
  else some (word.takeWhile (!isspace ·), if rest = [] then none else some (rest.takeWhile (· ≠ '\n')))

/-- `strstr (s, needle)` for a one-byte needle `c`: the bytes before the first
`c` and those after it, or `none` where the terminating NUL comes first. -/
def strstr (c : Char) : List Char → Option (List Char × List Char)
  | [] => none
  | d :: ds => if d = c then some ([], ds) else if d = '\x00' then none else (strstr c ds).map (Prod.map (d :: ·) id)

/-- What the loop carries from line to line: the C string in `value`, which
`sscanf` writes only when it converts a second field, and the variables from
the head of the list. -/
structure Scan where
  value : List Char
  vars : List Variable
  deriving DecidableEq, Repr

/-- A new variable at the head of the list: `key` with the text after the
blanks past the separator. The separator is overwritten by NUL, so `value`
then holds the name alone. -/
def define (vars : List Variable) (key rest : List Char) : Scan := ⟨key, ⟨key, skipBlanks rest⟩ :: vars⟩

/-- The `strcasecmp (key, "set") == 0` branch: the name runs from the `$` to
the first space, or to the first tab where there is no space. -/
def assign (st : Scan) : Scan :=
  if cAt st.value 0 ≠ '$' then st
  else match strstr ' ' st.value, strstr '\t' st.value with
    | none, none => st
    | some (key, rest), _ => define st.vars key rest
    | none, some (key, rest) => define st.vars key rest

/-- `key` and `value` are arrays of 512 bytes: `sscanf` writes a field of 512
bytes or more, with its NUL, past the end of its array. -/
def fits (field : List Char) : Bool := field.length < 512

/-- One round of the loop on the line `fgets` left in `buffer`, read as a C
string; `none` where `sscanf` writes past `key` or `value`. -/
def scanLine (st : Scan) (line : List Char) : Option Scan :=
  match sscanf (cString line) with
  | none => some st
  | some (key, value) =>
      if fits key && value.all fits then
        if cAt key 0 = '#' ∨ key.length < 3 then some { st with value := value.getD st.value }
        else if strcasecmp key "set".toList then some (assign { st with value := value.getD st.value })
        else some { st with value := value.getD st.value }
      else none

/-- The variables the loop collects from the file, where `value₀` is the C
string the uninitialised `value` holds at the start. -/
def scanFile (file value₀ : List Char) : Option (List Variable) :=
  ((fgetsLines file.length file).foldlM scanLine ⟨value₀, []⟩).map Scan.vars

def Clean (s : List Char) : Prop := '\n' ∉ s ∧ '\x00' ∉ s

theorem Clean.mono {s t : List Char} (h : Clean t) (hs : s ⊆ t) : Clean s :=
  ⟨fun hm => h.1 (hs hm), fun hm => h.2 (hs hm)⟩

/-- What the loop guarantees of each variable it collects: the name starts
with `$` and holds no space, and the value does not start with a blank. -/
structure Assigned (v : Variable) : Prop where
  dollar : cAt v.key 0 = '$'
  no_space : ' ' ∉ v.key
  key_clean : Clean v.key
  value_clean : Clean v.value
  no_blank : cAt v.value 0 ≠ ' ' ∧ cAt v.value 0 ≠ '\t'

instance (s : List Char) : Decidable (Clean s) := inferInstanceAs (Decidable (_ ∧ _))

instance (v : Variable) : Decidable (Assigned v) :=
  decidable_of_iff (cAt v.key 0 = '$' ∧ ' ' ∉ v.key ∧ Clean v.key ∧ Clean v.value ∧
      (cAt v.value 0 ≠ ' ' ∧ cAt v.value 0 ≠ '\t'))
    ⟨fun ⟨a, b, c, d, e⟩ => ⟨a, b, c, d, e⟩, fun ⟨a, b, c, d, e⟩ => ⟨a, b, c, d, e⟩⟩

structure ScanOk (st : Scan) : Prop where
  value : Clean st.value
  vars : ∀ v ∈ st.vars, Assigned v

theorem strstr_some {c : Char} : ∀ {s a b : List Char}, strstr c s = some (a, b) → s = a ++ c :: b ∧ c ∉ a
  | [], _, _, h => by simp [strstr] at h
  | d :: ds, a, b, h => by
      unfold strstr at h
      split_ifs at h with hd hn
      · cases h; exact ⟨by rw [hd]; rfl, List.not_mem_nil _⟩
      · obtain ⟨⟨a', b'⟩, h', he⟩ := Option.map_eq_some'.1 h
        cases he
        obtain ⟨rfl, ha⟩ := strstr_some h'
        exact ⟨rfl, by simpa [Ne.symm hd] using ha⟩

theorem strstr_none {c : Char} : ∀ {s : List Char}, '\x00' ∉ s → strstr c s = none → c ∉ s
  | [], _, _ => List.not_mem_nil _
  | d :: ds, hs, h => by
      have hn : d ≠ '\x00' := fun h => hs (h ▸ List.mem_cons_self _ _)
      unfold strstr at h
      rw [if_neg hn] at h
      split_ifs at h with hd
      simpa [Ne.symm hd] using strstr_none (fun h => hs (List.mem_cons_of_mem _ h)) (Option.map_eq_none'.1 h)

theorem strstr_append {c : Char} : ∀ {a : List Char} (b : List Char), c ∉ a → '\x00' ∉ a →
    strstr c (a ++ c :: b) = some (a, b)
  | [], _, _, _ => by simp [strstr]
  | d :: ds, b, hc, hn => by
      have hd : d ≠ c := fun h => hc (h ▸ List.mem_cons_self _ _)
      have hd' : d ≠ '\x00' := fun h => hn (h ▸ List.mem_cons_self _ _)
      rw [List.cons_append, strstr, if_neg hd, if_neg hd',
        strstr_append b (fun h => hc (List.mem_cons_of_mem _ h)) (fun h => hn (List.mem_cons_of_mem _ h))]
      rfl

theorem cAt_skipBlanks (s : List Char) : cAt (skipBlanks s) 0 ≠ ' ' ∧ cAt (skipBlanks s) 0 ≠ '\t' := by
  induction s with
  | nil => exact ⟨by decide, by decide⟩
  | cons c cs ih =>
      by_cases hc : c = ' ' ∨ c = '\t'
      · rwa [skipBlanks, List.dropWhile_cons_of_pos (by simpa using hc)]
      · rw [skipBlanks, List.dropWhile_cons_of_neg (by simpa using hc), cAt_cons_zero]
        exact not_or.1 hc

theorem define_ok {vars : List Variable} {key rest : List Char} {sep : Char} (hsep : sep = ' ' ∨ sep = '\t')
    (hc : Clean (key ++ sep :: rest)) (hd : cAt (key ++ sep :: rest) 0 = '$') (hs : ' ' ∉ key)
    (hvars : ∀ v ∈ vars, Assigned v) : ScanOk (define vars key rest) := by
  have hkey : Clean key := hc.mono (List.subset_append_left _ _)
  have hrest : Clean rest := hc.mono fun x hx => List.mem_append_right _ (List.mem_cons_of_mem _ hx)
  have hdollar : cAt key 0 = '$' := by
    cases key with
    | nil => rcases hsep with rfl | rfl <;> simp at hd
    | cons k ks => simpa using hd
  refine ⟨hkey, ?_⟩
  simp only [define, List.mem_cons, forall_eq_or_imp]
  exact ⟨⟨hdollar, hs, hkey, hrest.mono (List.dropWhile_suffix _).subset, cAt_skipBlanks rest⟩, hvars⟩

theorem assign_ok {st : Scan} (h : ScanOk st) : ScanOk (assign st) := by
  unfold assign
  split_ifs with hd
  · exact h
  have hd : cAt st.value 0 = '$' := not_not.1 hd
  rcases hsp : strstr ' ' st.value with _ | ⟨key, rest⟩
  · rcases htab : strstr '\t' st.value with _ | ⟨key, rest⟩
    · exact h
    · obtain ⟨he, -⟩ := strstr_some htab
      have hns := strstr_none h.value.2 hsp
      exact define_ok (.inr rfl) (he ▸ h.value) (he ▸ hd) (fun hm => hns (he ▸ List.mem_append_left _ hm)) h.vars
  · obtain ⟨he, hk⟩ := strstr_some hsp
    exact define_ok (.inl rfl) (he ▸ h.value) (he ▸ hd) hk h.vars

theorem sscanf_value_clean {s key value : List Char} (hs : '\x00' ∉ s)
    (h : sscanf s = some (key, some value)) : Clean value := by
  simp only [sscanf] at h
  split_ifs at h with hw hr
  · simp at h
  simp only [Option.some.injEq, Prod.mk.injEq] at h
  obtain ⟨-, rfl⟩ := h
  refine ⟨fun hm => by simpa using List.mem_takeWhile_imp hm, fun hm => hs ?_⟩
  exact (List.dropWhile_suffix _).subset ((List.dropWhile_suffix _).subset ((List.dropWhile_suffix _).subset
    ((List.takeWhile_prefix _).subset hm)))

theorem scanLine_ok {st st' : Scan} (h : ScanOk st) {line : List Char} (hl : scanLine st line = some st') :
    ScanOk st' := by
  unfold scanLine at hl
  split at hl
  · cases hl; exact h
  · next key value hs =>
      have hv : ScanOk { st with value := value.getD st.value } := by
        refine ⟨?_, h.vars⟩
        cases value with
        | none => exact h.value
        | some v => exact sscanf_value_clean (cString_nul_free line) hs
      split_ifs at hl <;> cases hl
      · exact hv
      · exact assign_ok hv
      · exact hv

theorem foldlM_scanLine_ok : ∀ (lines : List (List Char)) {st st' : Scan}, ScanOk st →
    lines.foldlM scanLine st = some st' → ScanOk st'
  | [], _, _, h, hl => by cases hl; exact h
  | line :: lines, st, _, h, hl => by
      rw [List.foldlM_cons] at hl
      obtain ⟨st₁, h₁, hl⟩ := Option.bind_eq_some.1 hl
      exact foldlM_scanLine_ok lines (scanLine_ok h h₁) hl

theorem scanFile_ok {file value₀ : List Char} (h₀ : Clean value₀) {vars : List Variable}
    (h : scanFile file value₀ = some vars) : ∀ v ∈ vars, Assigned v := by
  obtain ⟨st, hst, rfl⟩ := Option.map_eq_some'.1 h
  exact (foldlM_scanLine_ok _ ⟨h₀, fun _ h => absurd h (List.not_mem_nil _)⟩ hst).vars

/-- Every variable the loop collects, from any file, has a name that starts
with `$`, holds no space, no line feed and no NUL, and a value with no line
feed and no NUL that does not start with a blank. -/
theorem scanFile_assigned (file value₀ : List Char) (h₀ : Clean value₀) {vars : List Variable}
    (h : scanFile file value₀ = some vars) : ∀ v ∈ vars, Assigned v :=
  scanFile_ok h₀ h

theorem scanFile_assigned_tab :
    Clean [] ∧ scanFile "set $a\tb c\n# set x\nset\t$t \t v \n".toList [] =
        some [⟨"$t".toList, "v ".toList⟩, ⟨"$a\tb".toList, "c".toList⟩] ∧
      ∀ v ∈ ([⟨"$t".toList, "v ".toList⟩, ⟨"$a\tb".toList, "c".toList⟩] : List Variable), Assigned v :=
  have h : scanFile "set $a\tb c\n# set x\nset\t$t \t v \n".toList [] =
      some [⟨"$t".toList, "v ".toList⟩, ⟨"$a\tb".toList, "c".toList⟩] := by decide
  ⟨by decide, h, scanFile_assigned _ _ (by decide) h⟩

def setLine (v : Variable) : List Char := "set ".toList ++ v.key ++ ' ' :: v.value ++ ['\n']

theorem fgets_line : ∀ {body : List Char} (n : Nat) (rest : List Char), '\n' ∉ body → body.length < n →
    fgets n (body ++ '\n' :: rest) = (body ++ ['\n'], rest)
  | [], n + 1, _, _, _ => by simp [fgets]
  | c :: cs, n + 1, rest, hl, hn => by
      have hc : c ≠ '\n' := fun h => hl (h ▸ List.mem_cons_self _ _)
      rw [List.cons_append, fgets, if_neg hc,
        fgets_line n rest (fun h => hl (List.mem_cons_of_mem _ h)) (by simpa using hn)]
      rfl

theorem fgetsLines_succ {s : List Char} (hs : s ≠ []) (fuel : Nat) :
    fgetsLines (fuel + 1) s = (fgets 1023 s).1 :: fgetsLines fuel (fgets 1023 s).2 := by
  cases s with
  | nil => exact absurd rfl hs
  | cons c cs => rfl

theorem fgetsLines_lines : ∀ (lines : List (List Char)) (fuel : Nat),
    (∀ l ∈ lines, ∃ body, l = body ++ ['\n'] ∧ '\n' ∉ body ∧ body.length < 1023) →
      lines.flatten.length ≤ fuel → fgetsLines fuel lines.flatten = lines
  | [], 0, _, _ | [], _ + 1, _, _ => rfl
  | l :: lines, fuel, h, hf => by
      obtain ⟨body, rfl, hl, hn⟩ := h _ (List.mem_cons_self _ _)
      have hflat : ((body ++ ['\n']) :: lines).flatten = body ++ '\n' :: lines.flatten := by simp
      rw [hflat] at hf ⊢
      simp only [List.length_append, List.length_cons] at hf
      obtain ⟨fuel, rfl⟩ : ∃ f, fuel = f + 1 := ⟨fuel - 1, by omega⟩
      rw [fgetsLines_succ (by simp), fgets_line 1023 _ hl hn,
        fgetsLines_lines lines fuel (fun l hl => h l (List.mem_cons_of_mem _ hl)) (by omega)]

theorem cAt_append_zero {a : List Char} (b : List Char) (ha : a ≠ []) : cAt (a ++ b) 0 = cAt a 0 := by
  cases a with
  | nil => exact absurd rfl ha
  | cons c cs => rfl

theorem sscanf_set {r : List Char} (hr : Clean r) (hne : r ≠ []) (h0 : isspace (cAt r 0) = false) :
    sscanf ("set ".toList ++ r ++ ['\n']) = some ("set".toList, some r) := by
  obtain ⟨c, cs, rfl⟩ := List.exists_cons_of_ne_nil hne
  simp only [cAt_cons_zero] at h0
  have hword : ("set ".toList ++ c :: cs ++ ['\n']).dropWhile isspace =
      's' :: 'e' :: 't' :: ' ' :: (c :: cs ++ ['\n']) := rfl
  have hkey : ('s' :: 'e' :: 't' :: ' ' :: (c :: cs ++ ['\n'])).takeWhile (!isspace ·) = "set".toList := rfl
  have hrest : (('s' :: 'e' :: 't' :: ' ' :: (c :: cs ++ ['\n'])).dropWhile (!isspace ·)).dropWhile isspace =
      c :: cs ++ ['\n'] := by
    show (' ' :: (c :: cs ++ ['\n'])).dropWhile isspace = _
    rw [List.dropWhile_cons_of_pos rfl, List.cons_append, List.dropWhile_cons_of_neg (by simp [h0])]
  have htake : (c :: cs ++ ['\n']).takeWhile (· ≠ '\n') = c :: cs := by
    rw [List.takeWhile_append_of_pos fun x hx => ?_]
    · simp
    · simp only [ne_eq, decide_eq_true_eq]
      rintro rfl
      exact hr.1 hx
  simp only [sscanf, hword, hkey, hrest, htake]
  simp

theorem scanLine_set (st : Scan) {r : List Char} (hr : Clean r) (hne : r ≠ []) (h0 : isspace (cAt r 0) = false) :
    scanLine st ("set ".toList ++ r ++ ['\n']) = if fits r then some (assign ⟨r, st.vars⟩) else none := by
  have hnul : '\x00' ∉ "set ".toList ++ r ++ ['\n'] := by simpa using hr.2
  rw [scanLine, cString_of_nul_free hnul, sscanf_set hr hne h0]
  dsimp only [Option.all]
  cases fits r <;> rfl

theorem skipBlanks_of_cAt {s : List Char} (h : cAt s 0 ≠ ' ' ∧ cAt s 0 ≠ '\t') : skipBlanks s = s := by
  cases s with
  | nil => rfl
  | cons c cs => exact List.dropWhile_cons_of_neg (by simpa using h)

theorem setLine_eq (v : Variable) : setLine v = "set ".toList ++ (v.key ++ ' ' :: v.value) ++ ['\n'] := by
  simp [setLine]

theorem scanLine_setLine (st : Scan) {v : Variable} (hv : Assigned v ∧ v.key.length + v.value.length < 511) :
    scanLine st (setLine v) = some ⟨v.key, v :: st.vars⟩ := by
  have hne : v.key ≠ [] := fun h => absurd hv.1.dollar (by simp [h])
  have hd : cAt (v.key ++ ' ' :: v.value) 0 = '$' := by rw [cAt_append_zero _ hne, hv.1.dollar]
  have hc : Clean (v.key ++ ' ' :: v.value) := by
    refine ⟨?_, ?_⟩ <;> simp [hv.1.key_clean.1, hv.1.key_clean.2, hv.1.value_clean.1, hv.1.value_clean.2]
  have hfit : fits (v.key ++ ' ' :: v.value) = true := by
    simp only [fits, List.length_append, List.length_cons, decide_eq_true_eq]; omega
  rw [setLine_eq, scanLine_set st hc (by simp) (by rw [hd]; rfl), hfit, if_pos rfl, assign,
    if_neg (by simpa using hd), strstr_append _ hv.1.no_space hv.1.key_clean.2]
  simp only [define, skipBlanks_of_cAt hv.1.no_blank]

theorem foldlM_scanLine_setLines : ∀ (defs : List Variable) (st : Scan),
    (∀ v ∈ defs, Assigned v ∧ v.key.length + v.value.length < 511) →
      ((defs.map setLine).foldlM scanLine st).map Scan.vars = some (defs.reverse ++ st.vars)
  | [], _, _ => rfl
  | v :: defs, st, h => by
      rw [List.map_cons, List.foldlM_cons, scanLine_setLine st (h v (List.mem_cons_self _ _)), Option.bind_eq_bind,
        Option.some_bind, foldlM_scanLine_setLines defs _ fun w hw => h w (List.mem_cons_of_mem _ hw)]
      simp

theorem setLine_fits {v : Variable} (h : Assigned v ∧ v.key.length + v.value.length < 511) :
    ∃ body, setLine v = body ++ ['\n'] ∧ '\n' ∉ body ∧ body.length < 1023 := by
  refine ⟨"set ".toList ++ v.key ++ ' ' :: v.value, by simp [setLine], ?_, ?_⟩
  · simp [h.1.key_clean.1, h.1.value_clean.1]
  · have := h.2
    simp only [List.length_append, List.length_cons]
    have : "set ".toList.length = 4 := rfl
    omega

/-- A file of `set` lines, each short enough for the 512-byte `key` and
`value` buffers, gives back the variables it sets, the last line's first. -/
theorem scanFile_setLines (defs : List Variable) (h : ∀ v ∈ defs, Assigned v ∧ v.key.length + v.value.length < 511)
    (value₀ : List Char) : scanFile (defs.map setLine).flatten value₀ = some defs.reverse := by
  rw [scanFile, fgetsLines_lines _ _ ?_ le_rfl, foldlM_scanLine_setLines _ _ h, List.append_nil]
  intro l hl
  obtain ⟨v, hv, rfl⟩ := List.mem_map.1 hl
  exact setLine_fits (h v hv)

theorem scanFile_setLines_mod :
    (∀ v ∈ [⟨"$mod".toList, "Mod4".toList⟩, ⟨"$mod".toList, "Mod1".toList⟩],
        Assigned v ∧ v.key.length + v.value.length < 511) ∧
      scanFile ([⟨"$mod".toList, "Mod4".toList⟩, ⟨"$mod".toList, "Mod1".toList⟩].map setLine).flatten [] =
        some [⟨"$mod".toList, "Mod1".toList⟩, ⟨"$mod".toList, "Mod4".toList⟩] :=
  ⟨by decide, scanFile_setLines _ (by decide) _⟩

theorem fgets_chunk : ∀ {p : List Char} (rest : List Char), '\n' ∉ p → fgets p.length (p ++ rest) = (p, rest)
  | [], _, _ => rfl
  | c :: cs, rest, hl => by
      have hc : c ≠ '\n' := fun h => hl (h ▸ List.mem_cons_self _ _)
      rw [List.cons_append, List.length_cons, fgets, if_neg hc,
        fgets_chunk rest (fun h => hl (List.mem_cons_of_mem _ h))]
      rfl

/-- `fgets` reads at most 1023 bytes, so after the first 1023 bytes of a longer
line the loop reads on as if a line started there: a `set` line put there
defines its variable, whatever the line began with (a comment, say). -/
theorem scanFile_long_line {p : List Char} (hp : p.length = 1023) (hlf : '\n' ∉ p) {v : Variable}
    (hv : Assigned v ∧ v.key.length + v.value.length < 511) (value₀ : List Char) :
    scanFile (p ++ setLine v) value₀ = (scanLine ⟨value₀, []⟩ p).map fun st => v :: st.vars := by
  have hsplit : fgetsLines (p ++ setLine v).length (p ++ setLine v) = [p, setLine v] := by
    rw [List.length_append, hp, show 1023 + (setLine v).length = (1022 + (setLine v).length) + 1 by omega,
      fgetsLines_succ (by simp [← List.length_pos, hp]), ← hp, fgets_chunk _ hlf,
      ← List.flatten_singleton (setLine v),
      fgetsLines_lines [setLine v] _ (by simpa using setLine_fits hv) (by simp)]
    simp
  rw [scanFile, hsplit, List.foldlM_cons, Option.bind_eq_bind]
  cases scanLine ⟨value₀, []⟩ p with
  | none => rfl
  | some st => rw [Option.some_bind, List.foldlM_cons, scanLine_setLine _ hv]; rfl

theorem scanFile_long_line_comment :
    scanFile (('#' :: List.replicate 510 'x' ++ ' ' :: List.replicate 511 'y') ++ setLine ⟨"$x".toList, "y".toList⟩) [] =
      (scanLine ⟨[], []⟩ ('#' :: List.replicate 510 'x' ++ ' ' :: List.replicate 511 'y')).map
        fun st => ⟨"$x".toList, "y".toList⟩ :: st.vars :=
  scanFile_long_line (by simp only [List.length_cons, List.length_append, List.length_replicate])
    (by simp only [List.mem_cons, List.mem_append, List.mem_replicate]; decide) (by decide) []

theorem sscanf_value_start {s key value : List Char} (h : sscanf s = some (key, some value)) :
    value ≠ [] ∧ isspace (cAt value 0) = false := by
  simp only [sscanf] at h
  split_ifs at h with hw hr
  · simp at h
  simp only [Option.some.injEq, Prod.mk.injEq] at h
  obtain ⟨-, rfl⟩ := h
  have hc := List.head_dropWhile_not _ _ hr
  obtain ⟨c, cs, hcs⟩ := List.exists_cons_of_ne_nil hr
  simp only [hcs, List.head_cons] at hc ⊢
  have hlf : c ≠ '\n' := fun h => by simp [h, isspace] at hc
  rw [List.takeWhile_cons_of_pos (by simpa using hlf)]
  exact ⟨List.cons_ne_nil _ _, hc⟩

/-- A `set` line with nothing after the word reads `value` as the line before
left it: after a line whose first word is not `set` and which goes on past
that word, the bare `set` acts as `set` followed by the rest of that line. -/
theorem bare_set_reuses_value (st : Scan) {line key value : List Char}
    (hs : sscanf (cString line) = some (key, some value)) (hkey : strcasecmp key "set".toList = false)
    (hfit : fits key = true) :
    (scanLine st line).bind (scanLine · "set\n".toList) = scanLine st ("set ".toList ++ value ++ ['\n']) := by
  have h1 : scanLine st line = if fits value then some ⟨value, st.vars⟩ else none := by
    rw [scanLine, hs]
    dsimp only [Option.all]
    rw [hfit, Bool.true_and, hkey]
    cases fits value <;> simp
  obtain ⟨hne, h0⟩ := sscanf_value_start hs
  rw [h1, scanLine_set st (sscanf_value_clean (cString_nul_free line) hs) hne h0]
  cases fits value <;> rfl

theorem bare_set_reuses_value_bindsym :
    sscanf (cString "bindsym $mod+x exec foo\n".toList) = some ("bindsym".toList, some "$mod+x exec foo".toList) ∧
      strcasecmp "bindsym".toList "set".toList = false ∧ fits "bindsym".toList = true ∧
      (scanLine ⟨[], []⟩ "bindsym $mod+x exec foo\n".toList).bind (scanLine · "set\n".toList) =
        scanLine ⟨[], []⟩ ("set ".toList ++ "$mod+x exec foo".toList ++ ['\n']) :=
  have hs : sscanf (cString "bindsym $mod+x exec foo\n".toList) =
      some ("bindsym".toList, some "$mod+x exec foo".toList) := by decide
  have hk : strcasecmp "bindsym".toList "set".toList = false := by decide
  have hf : fits "bindsym".toList = true := by decide
  ⟨hs, hk, hf, bare_set_reuses_value _ hs hk hf⟩

/-- The C string `parse_file` hands to `parse_config` (lines 900 to 1043): the
variables of the file's `set` lines, the copy loop over the file, and for a
file `detect_version` takes for version 3 the output of `migrate_config (new,
st_size)`, which runs an external converter: `migrate` stands for what it
returns, `none` for its NULL. The result is `none` where the scan writes past
`key` or `value`, or where the copy loop never wrote the NUL. -/
def parseFileInput (migrate : List Char → Option (List Char)) (buf value₀ : List Char) : Option (List Char) :=
  (scanFile buf value₀).bind fun vars =>
    if (replaceVariables vars buf).2 then
      some (if detectVersion buf = 3 then (migrate (replaceVariables vars buf).1).getD (cString (replaceVariables vars buf).1)
        else cString (replaceVariables vars buf).1)
    else none

end I3Config.Assignments

import I3Config.CString
import I3Config.Tables

namespace I3Config.Lexer

open CString ValueStack Tables

variable {σ : Type}

/-- `while ((*walk == ' ' || *walk == '\t') && *walk != '\0') walk++`, as the
number of bytes skipped. -/
def skipWhitespace (rest : List Char) : Nat :=
  (rest.takeWhile fun c => c = ' ' || c = '\t').length

def LONG_MAX : Int := 9223372036854775807
def LONG_MIN : Int := -9223372036854775808

def digitsValue (ds : List Char) : Nat :=
  ds.foldl (fun acc d => 10 * acc + (d.toNat - '0'.toNat)) 0

/-- The conversion of `strtol` after its whitespace skip: an optional sign and
the digits, giving their length and the exact value; `none` when no digit
follows. -/
def strtolBody (body : List Char) : Option (Nat × Int) :=
  let sign := if body.head? = some '-' ∨ body.head? = some '+' then 1 else 0
  let ds := (body.drop sign).takeWhile Char.isDigit
  if ds = [] then none
  else some (sign + ds.length, if body.head? = some '-' then -(digitsValue ds : Int) else digitsValue ds)

/-- `strtol (walk, &end, 10)` as the recogniser reads it: leading `isspace`
bytes, then the sign and digits, giving the offset of `end` and the exact
value; `none` when no digit follows (`end == walk`). -/
def strtol (rest : List Char) : Option (Nat × Int) :=
  (strtolBody (rest.dropWhile isspace)).map fun r => ((rest.takeWhile isspace).length + r.1, r.2)

/-- The `number` recogniser: `strtol`, rejected on `ERANGE` (a value outside
`[LONG_MIN, LONG_MAX]`) and when `end == walk`. -/
def matchNumber (rest : List Char) : Option (Nat × Int) :=
  match strtol rest with
  | some (n, num) => if LONG_MIN ≤ num ∧ num ≤ LONG_MAX then some (n, num) else none
  | none => none

/-- `while (*walk != '\0' && (*walk != '"' || *(walk-1) == '\\')) walk++`,
counted from the byte after the opening quote; `prev` is `*(walk-1)`. -/
def scanQuoted : Char → List Char → Nat
  | _, [] => 0
  | prev, c :: cs => if c = '\x00' ∨ (c = '"' ∧ prev ≠ '\\') then 0 else scanQuoted c cs + 1

/-- The copy loop over `n` input bytes: a backslash followed by a double quote
is read as the quote. The look-ahead may reach the byte after the `n`. -/
def unescape : Nat → List Char → List Char
  | 0, _ => []
  | 1, '\\' :: '"' :: _ => ['"']
  | n + 2, '\\' :: '"' :: cs => '"' :: unescape n cs
  | n + 1, c :: cs => c :: unescape n cs
  | _ + 1, [] => []

/-- NUL, CR or LF: where `line` and unquoted `string` stop and `end` matches. -/
def endsLine (c : Char) : Bool := c = '\x00' || c = '\r' || c = '\n'

def endsWord (c : Char) : Bool :=
  c = ' ' || c = '\t' || c = ']' || c = ',' || c = ';' || endsLine c

/-- What one descriptor does at the cursor: it matches, leaving the cursor at
`walk` with the value to capture, or it falls through with the cursor at
`walk`. -/
inductive TokenResult
  | taken (walk : Nat) (value : Option StackVal) (newline : Bool)
  | passed (walk : Nat)
  deriving DecidableEq, Repr

/-- The end of a `string`/`word` match over `n` bytes of `body` from offset
`beginning`: `if (walk != beginning)` copy them unescaped and step over a
closing quote; an empty match falls through with the cursor at `beginning`. -/
def finishMatch (beginning n : Nat) (body : List Char) : TokenResult :=
  if n = 0 then .passed beginning
  else .taken (beginning + n + if cAt body n = '"' then 1 else 0) (some (.str (unescape n body))) false

def unquotedLength (isString : Bool) (rest : List Char) : Nat :=
  (rest.takeWhile fun c => !if isString then endsLine c else endsWord c).length

/-- The `string`/`word` recogniser: a quoted form, or an unquoted one ending at
a line end (`string`) or a word delimiter (`word`). -/
def matchQuotable (isString : Bool) (rest : List Char) (walk : Nat) : TokenResult :=
  if cAt rest 0 = '"' then finishMatch (walk + 1) (scanQuoted '"' rest.tail) rest.tail
  else finishMatch walk (unquotedLength isString rest) rest

def isLiteral (t : Token σ) : Bool := t.name.toList.head? = some '\''

/-- `token->name + 1`: the spelling of a literal. -/
def spelling (t : Token σ) : List Char := t.name.toList.tail

/-- One iteration of the descriptor loop of `parse_config` for the token. -/
def tryToken (s : List Char) (t : Token σ) (walk : Nat) : TokenResult :=
  if isLiteral t then
    if strncasecmp (s.drop walk) (spelling t) (spelling t).length then
      .taken (walk + (spelling t).length) (some (.str (spelling t))) false
    else .passed walk
  else if t.name = "number" then
    match matchNumber (s.drop walk) with
    | some (n, num) => .taken (walk + n) (some (.long num)) false
    | none => .passed walk
  else if t.name = "string" ∨ t.name = "word" then
    matchQuotable (t.name.toList.head? = some 's') (s.drop walk) walk
  else if t.name = "line" then
    .taken (walk + ((s.drop walk).takeWhile fun c => !endsLine c).length + 1) none true
  else if t.name = "end" then
    if endsLine (cAt (s.drop walk) 0) then .taken (walk + 1) none true else .passed walk
  else .passed walk

inductive Attempt (σ : Type)
  | matched (t : Token σ) (walk : Nat) (value : Option StackVal) (newline : Bool)
  | unmatched (walk : Nat)
  deriving DecidableEq, Repr

/-- `for (c = 0; c < ptr->n; c++)`: the descriptors in table order, each tried
where the previous one left the cursor; the first match wins. -/
def matchTokens (s : List Char) : List (Token σ) → Nat → Attempt σ
  | [], walk => .unmatched walk
  | t :: ts, walk =>
      match tryToken s t walk with
      | .taken walk' v nl => .matched t walk' v nl
      | .passed walk' => matchTokens s ts walk'

theorem cAt_lt_length {s : List Char} {i : Nat} {c : Char} (h : cAt s i = c) (hc : c ≠ '\x00') :
    i < s.length := by
  by_contra hi
  exact hc (h ▸ cAt_of_length_le (Nat.le_of_not_lt hi))

theorem scanQuoted_le : ∀ (p : Char) (l : List Char), scanQuoted p l ≤ l.length
  | _, [] => le_rfl
  | p, c :: cs => by
      unfold scanQuoted
      split_ifs
      · exact Nat.zero_le _
      · simpa using scanQuoted_le c cs

theorem strtolBody_bounds {b : List Char} {m : Nat} {v : Int} (h : strtolBody b = some (m, v)) :
    0 < m ∧ m ≤ b.length := by
  simp only [strtolBody] at h
  have h3 : (if b.head? = some '-' ∨ b.head? = some '+' then 1 else 0) ≤ b.length := by
    split_ifs with hs
    · rcases b with _ | ⟨c, b⟩
      · simp at hs
      · exact Nat.succ_le_succ (Nat.zero_le _)
    · exact Nat.zero_le _
  generalize (if b.head? = some '-' ∨ b.head? = some '+' then 1 else 0) = sign at h h3
  generalize hd : (b.drop sign).takeWhile Char.isDigit = ds at h
  by_cases hds : ds = []
  · simp [hds] at h
  rw [if_neg hds] at h
  obtain ⟨rfl, -⟩ := Prod.mk.inj (Option.some.inj h)
  have h1 := (hd ▸ List.takeWhile_sublist Char.isDigit (l := b.drop sign)).length_le
  have h2 := List.length_pos.2 hds
  simp only [List.length_drop] at h1
  omega

theorem strtol_bounds {l : List Char} {n : Nat} {v : Int} (h : strtol l = some (n, v)) :
    0 < n ∧ n ≤ l.length := by
  obtain ⟨⟨m, v'⟩, hb, he⟩ := Option.map_eq_some'.1 h
  obtain ⟨rfl, -⟩ := Prod.mk.inj he
  have := strtolBody_bounds hb
  have hl : (l.takeWhile isspace).length + (l.dropWhile isspace).length = l.length := by
    rw [← List.length_append, List.takeWhile_append_dropWhile]
  omega

theorem finishMatch_passed {b n w : Nat} {body : List Char} (h : finishMatch b n body = .passed w) :
    w = b := by
  unfold finishMatch at h
  split_ifs at h
  cases h; rfl

theorem finishMatch_taken {b n w : Nat} {body : List Char} {v : Option StackVal} {nl : Bool}
    (hn : n ≤ body.length) (h : finishMatch b n body = .taken w v nl) :
    b < w ∧ w ≤ b + body.length := by
  unfold finishMatch at h
  split_ifs at h with h0 hc <;> cases h
  · have := cAt_lt_length hc (by decide); omega
  · omega

theorem matchQuotable_passed {b : Bool} {rest : List Char} {w w' : Nat}
    (h : matchQuotable b rest w = .passed w') : w' = w ∨ (cAt rest 0 = '"' ∧ w' = w + 1) := by
  unfold matchQuotable at h
  split_ifs at h with hq
  · exact .inr ⟨hq, finishMatch_passed h⟩
  · exact .inl (finishMatch_passed h)

theorem matchQuotable_taken {b : Bool} {rest : List Char} {w w' : Nat} {v : Option StackVal}
    {nl : Bool} (h : matchQuotable b rest w = .taken w' v nl) :
    w < w' ∧ w' ≤ w + rest.length := by
  unfold matchQuotable at h
  split_ifs at h with hq
  · have := finishMatch_taken (scanQuoted_le _ _) h
    have : rest.tail.length + 1 = rest.length := by cases rest <;> simp_all
    omega
  · exact finishMatch_taken (List.takeWhile_sublist _).length_le h

theorem tryToken_passed {s : List Char} {t : Token σ} {w w' : Nat}
    (h : tryToken s t w = .passed w') : w' = w ∨ (cAt s w = '"' ∧ w' = w + 1) := by
  unfold tryToken at h
  by_cases hl : isLiteral t
  · rw [if_pos hl] at h
    split at h <;> cases h
    exact .inl rfl
  by_cases hn : t.name = "number"
  · rw [if_neg hl, if_pos hn] at h
    split at h <;> cases h
    exact .inl rfl
  by_cases hq : t.name = "string" ∨ t.name = "word"
  · rw [if_neg hl, if_neg hn, if_pos hq] at h
    simpa [cAt_drop] using matchQuotable_passed h
  rw [if_neg hl, if_neg hn, if_neg hq] at h
  split_ifs at h <;> cases h <;> exact .inl rfl

theorem matchNumber_bounds {rest : List Char} {n : Nat} {v : Int} (h : matchNumber rest = some (n, v)) :
    0 < n ∧ n ≤ rest.length := by
  unfold matchNumber at h
  split at h
  · split_ifs at h
    cases h
    exact strtol_bounds ‹_›
  · cases h

theorem tryToken_taken {s : List Char} {t : Token σ} {w w' : Nat} {v : Option StackVal}
    {nl : Bool} (hlit : isLiteral t → spelling t ≠ []) (hnul : '\x00' ∉ spelling t)
    (hw : w ≤ s.length) (h : tryToken s t w = .taken w' v nl) : w < w' ∧ w' ≤ s.length + 1 := by
  have hd : (s.drop w).length = s.length - w := List.length_drop _ _
  unfold tryToken at h
  by_cases hl : isLiteral t
  · rw [if_pos hl] at h
    split at h <;> cases h
    have := strncasecmp_length_le hnul ‹_›
    have := List.length_pos.2 (hlit hl)
    omega
  by_cases hn : t.name = "number"
  · rw [if_neg hl, if_pos hn] at h
    split at h <;> cases h
    have := matchNumber_bounds ‹_›
    omega
  by_cases hq : t.name = "string" ∨ t.name = "word"
  · rw [if_neg hl, if_neg hn, if_pos hq] at h
    have := matchQuotable_taken h
    omega
  rw [if_neg hl, if_neg hn, if_neg hq] at h
  split_ifs at h <;> cases h
  · have := (List.takeWhile_sublist (fun c => !endsLine c) (l := s.drop w)).length_le
    omega
  · omega

theorem endsLine_cAt_takeWhile : ∀ l : List Char, endsLine (cAt l (l.takeWhile fun c => !endsLine c).length) = true
  | [] => rfl
  | c :: cs => by
      by_cases hc : endsLine c
      · simp [hc]
      · rw [List.takeWhile_cons_of_pos (by simpa using hc), List.length_cons, cAt_cons_succ]
        exact endsLine_cAt_takeWhile cs

theorem matchQuotable_newline {b : Bool} {rest : List Char} {w w' : Nat} {v : Option StackVal} {nl : Bool}
    (h : matchQuotable b rest w = .taken w' v nl) : nl = false := by
  unfold matchQuotable finishMatch at h
  split_ifs at h <;> cases h <;> rfl

theorem tryToken_taken_le {s : List Char} {t : Token σ} {w w' : Nat} {v : Option StackVal} {nl : Bool}
    (h : tryToken s t w = .taken w' v nl) : w ≤ w' ∧ (nl = true → w < w' ∧ endsLine (cAt s (w' - 1)) = true) := by
  unfold tryToken at h
  by_cases hl : isLiteral t
  · rw [if_pos hl] at h
    split at h <;> cases h
    exact ⟨by omega, by simp⟩
  by_cases hn : t.name = "number"
  · rw [if_neg hl, if_pos hn] at h
    split at h <;> cases h
    exact ⟨by omega, by simp⟩
  by_cases hq : t.name = "string" ∨ t.name = "word"
  · rw [if_neg hl, if_neg hn, if_pos hq] at h
    exact ⟨(matchQuotable_taken h).1.le, by simp [matchQuotable_newline h]⟩
  rw [if_neg hl, if_neg hn, if_neg hq] at h
  by_cases hline : t.name = "line"
  · rw [if_pos hline] at h
    cases h
    refine ⟨by omega, fun _ => ⟨by omega, ?_⟩⟩
    rw [Nat.add_sub_cancel, ← cAt_drop]
    exact endsLine_cAt_takeWhile _
  by_cases hend : t.name = "end"
  · rw [if_neg hline, if_pos hend] at h
    split at h <;> cases h
    refine ⟨by omega, fun _ => ⟨by omega, ?_⟩⟩
    rwa [Nat.add_sub_cancel, ← Nat.add_zero w, ← cAt_drop]
  · rw [if_neg hline, if_neg hend] at h
    cases h

theorem tryToken_end {s : List Char} {t : Token σ} {w : Nat} (ht : t.name = "end")
    (he : endsLine (cAt s w) = true) : tryToken s t w = .taken (w + 1) none true := by
  simp [tryToken, isLiteral, ht, cAt_drop, he]

theorem matchTokens_newline {s : List Char} {w : Nat} (hw : cAt s w = '\n') :
    ∀ {ts : List (Token σ)}, (∃ t ∈ ts, t.name = "end") →
      ∃ t w' v nl, matchTokens s ts w = .matched t w' v nl
  | [], ⟨_, ht, _⟩ => absurd ht (List.not_mem_nil _)
  | t :: ts, ⟨e, he, hn⟩ => by
      unfold matchTokens
      cases htry : tryToken s t w with
      | taken w' v nl => exact ⟨t, w', v, nl, rfl⟩
      | passed w' =>
          obtain rfl : w' = w := (tryToken_passed htry).resolve_right (by simp [hw])
          rcases List.mem_cons.1 he with rfl | he
          · rw [tryToken_end hn (by simp [hw, endsLine])] at htry
            cases htry
          · exact matchTokens_newline hw ⟨e, he, hn⟩

section Bounds

variable {s : List Char} {ts : List (Token σ)}
  (hlit : ∀ t ∈ ts, isLiteral t → spelling t ≠ []) (hnul : ∀ t ∈ ts, '\x00' ∉ spelling t)
include hlit hnul

theorem matchTokens_matched {w w' : Nat} {t : Token σ} {v : Option StackVal} {nl : Bool}
    (hw : w ≤ s.length) (h : matchTokens s ts w = .matched t w' v nl) :
    t ∈ ts ∧ w < w' ∧ w' ≤ s.length + 1 := by
  induction ts generalizing w with
  | nil => cases h
  | cons u us ih =>
      unfold matchTokens at h
      cases htry : tryToken s u w with
      | taken w'' v' nl' =>
          rw [htry] at h
          cases h
          exact ⟨List.mem_cons_self _ _, tryToken_taken (hlit _ (List.mem_cons_self _ _))
            (hnul _ (List.mem_cons_self _ _)) hw htry⟩
      | passed w'' =>
          rw [htry] at h
          have hp := tryToken_passed htry
          have hw'' : w'' ≤ s.length := by
            rcases hp with rfl | ⟨hq, rfl⟩
            · exact hw
            · exact cAt_lt_length hq (by decide)
          obtain ⟨hm, hlt, hle⟩ := ih (fun t ht => hlit t (List.mem_cons_of_mem _ ht))
            (fun t ht => hnul t (List.mem_cons_of_mem _ ht)) hw'' h
          exact ⟨List.mem_cons_of_mem _ hm, by omega, hle⟩

end Bounds

theorem matchTokens_unmatched {s : List Char} {w w' : Nat} (hw : w ≤ s.length) :
    ∀ {ts : List (Token σ)}, matchTokens s ts w = .unmatched w' → w ≤ w' ∧ w' ≤ s.length
  | [], h => by cases h; exact ⟨le_rfl, hw⟩
  | t :: ts, h => by
      unfold matchTokens at h
      cases htry : tryToken s t w with
      | taken => rw [htry] at h; cases h
      | passed w'' =>
          rw [htry] at h
          rcases tryToken_passed htry with rfl | ⟨hq, rfl⟩
          · exact matchTokens_unmatched hw h
          · have := matchTokens_unmatched (cAt_lt_length hq (by decide)) h
            omega

theorem matchTokens_matched_le {s : List Char} {t : Token σ} {w' : Nat} {v : Option StackVal} {nl : Bool} :
    ∀ {ts : List (Token σ)} {w : Nat}, matchTokens s ts w = .matched t w' v nl →
      w ≤ w' ∧ (nl = true → w < w' ∧ endsLine (cAt s (w' - 1)) = true)
  | [], _, h => by cases h
  | u :: us, w, h => by
      unfold matchTokens at h
      cases htry : tryToken s u w with
      | taken => rw [htry] at h; cases h; exact tryToken_taken_le htry
      | passed w'' =>
          rw [htry] at h
          have hw : w ≤ w'' := by rcases tryToken_passed htry with rfl | ⟨-, rfl⟩ <;> omega
          obtain ⟨h1, h2⟩ := matchTokens_matched_le h
          exact ⟨hw.trans h1, fun hn => ⟨by have := (h2 hn).1; omega, (h2 hn).2⟩⟩

end I3Config.Lexer

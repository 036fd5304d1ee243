import I3Config.Lexer

namespace I3Config.Report

open CString Tables Lexer

variable {σ : Type}

/-- The JSON record of a parse error; `success` and `parse_error` are the
constants `false` and `true`. -/
structure ErrorRecord where
  error : List Char
  input : List Char
  errorposition : List Char
  deriving DecidableEq, Repr

/-- The loop filling `possible_tokens`: a literal in single quotes, any other
kind in angle brackets, `error` descriptors skipped; `", "` follows every
entry that is not the table's last descriptor. -/
def possibleTokens : List (Token σ) → List Char
  | [] => []
  | t :: ts =>
      let sep := if ts.isEmpty then [] else [',', ' ']
      if isLiteral t then '\'' :: spelling t ++ '\'' :: sep ++ possibleTokens ts
      else if t.name = "error" then possibleTokens ts
      else '<' :: t.name.toList ++ '>' :: sep ++ possibleTokens ts

def errorMessage (tokens : List (Token σ)) : List Char :=
  "Expected one of these tokens: ".toList ++ possibleTokens tokens

/-- The entry a descriptor contributes to the message, read off the message's
own description: the spelling in single quotes for a literal, nothing for
`error`, `<name>` for any other kind. -/
def entry (t : Token σ) : Option (List Char) :=
  if isLiteral t then some ('\'' :: spelling t ++ ['\''])
  else if t.name = "error" then none
  else some ('<' :: t.name.toList ++ ['>'])

/-- `tokenlen`: `strlen (name) + strlen ("'', ")` summed over the descriptors,
counted in characters as the whole model counts bytes. -/
def tokenlen : List (Token σ) → Nat
  | [] => 0
  | t :: ts => t.name.length + 4 + tokenlen ts

theorem entry_eq_none {t : Token σ} : entry t = none ↔ t.name = "error" := by
  unfold entry
  by_cases hl : isLiteral t
  · have hn : t.name ≠ "error" := fun h => by simp [isLiteral, h] at hl
    simp [hl, hn]
  · by_cases hn : t.name = "error" <;> simp [hl, hn]

theorem possibleTokens_cons_of_none {t : Token σ} (h : entry t = none) (ts : List (Token σ)) :
    possibleTokens (t :: ts) = possibleTokens ts := by
  have hn := entry_eq_none.1 h
  have hl : ¬isLiteral t := fun hl => by simp [isLiteral, hn] at hl
  simp [possibleTokens, hl, hn]

theorem possibleTokens_cons_of_some {t : Token σ} {e : List Char} (h : entry t = some e) (ts : List (Token σ)) :
    possibleTokens (t :: ts) = e ++ (if ts.isEmpty then [] else [',', ' ']) ++ possibleTokens ts := by
  unfold entry at h
  by_cases hl : isLiteral t
  · simp only [hl, if_true, Option.some.injEq] at h
    subst h
    simp [possibleTokens, hl]
  · by_cases hn : t.name = "error"
    · simp [hl, hn] at h
    · rw [if_neg hl, if_neg hn, Option.some.injEq] at h
      subst h
      simp [possibleTokens, hl, hn]

theorem possibleTokens_eq_nil : ∀ {ts : List (Token σ)}, ts.filterMap entry = [] → possibleTokens ts = []
  | [], _ => rfl
  | t :: ts, h => by
      cases he : entry t with
      | none =>
          rw [possibleTokens_cons_of_none he]
          exact possibleTokens_eq_nil (by simpa [he] using h)
      | some e => simp [he] at h

theorem last_error_of_filterMap_nil {ts : List (Token σ)} (h : ts.filterMap entry = []) (hts : ts ≠ []) :
    ts.getLast?.map Token.name = some "error" := by
  obtain ⟨u, hu⟩ := List.getLast?_isSome.2 hts |> Option.isSome_iff_exists.1
  have hmem := List.mem_of_getLast?_eq_some hu
  rw [List.filterMap_eq_nil_iff] at h
  simp [hu, entry_eq_none.1 (h u hmem)]

theorem intercalate_cons_of_ne_nil (sep e : List Char) {es : List (List Char)} (h : es ≠ []) :
    sep.intercalate (e :: es) = e ++ sep ++ sep.intercalate es := by
  cases es with
  | nil => exact absurd rfl h
  | cons b es => simp [List.intercalate, List.intersperse_cons₂, List.flatten_cons]

theorem possibleTokens_eq : ∀ ts : List (Token σ),
    possibleTokens ts = [',', ' '].intercalate (ts.filterMap entry) ++
      if ts.filterMap entry ≠ [] ∧ ts.getLast?.map Token.name = some "error" then [',', ' '] else []
  | [] => rfl
  | t :: ts => by
      have ih := possibleTokens_eq ts
      cases he : entry t with
      | none =>
          rw [possibleTokens_cons_of_none he, ih, List.filterMap_cons_none he]
          rcases ts with _ | ⟨u, us⟩
          · rfl
          · rw [List.getLast?_cons_cons]
      | some e =>
          rw [possibleTokens_cons_of_some he, List.filterMap_cons_some he]
          have hne : t.name ≠ "error" := fun h => by simp [entry_eq_none.2 h] at he
          rcases ts with _ | ⟨u, us⟩
          · simp [possibleTokens, hne, List.intercalate]
          · rw [List.getLast?_cons_cons]
            by_cases hE : (u :: us).filterMap entry = []
            · rw [possibleTokens_eq_nil hE, hE, last_error_of_filterMap_nil hE (List.cons_ne_nil _ _)]
              simp [List.intercalate]
            · rw [ih, intercalate_cons_of_ne_nil _ _ hE]
              simp [hE]

theorem entry_length_le {t : Token σ} {e : List Char} (h : entry t = some e) : e.length ≤ t.name.length + 2 := by
  have hn : t.name.data.length = t.name.length := rfl
  unfold entry at h
  split_ifs at h <;> cases h <;> simp [spelling, hn]

/-- The fill loop writes at most `tokenlen + 1` bytes, its NUL included: an
entry takes at most its name and four more bytes, and `error` takes none. -/
theorem possibleTokens_fits : ∀ ts : List (Token σ), (possibleTokens ts).length + 1 ≤ tokenlen ts + 1
  | [] => le_rfl
  | t :: ts => by
      have ih := possibleTokens_fits ts
      have ht : tokenlen (t :: ts) = t.name.length + 4 + tokenlen ts := rfl
      cases he : entry t with
      | none => rw [possibleTokens_cons_of_none he, ht]; omega
      | some e =>
          have hsep : (if ts.isEmpty then [] else [',', ' ']).length ≤ 2 := by split_ifs <;> simp
          have := entry_length_le he
          rw [possibleTokens_cons_of_some he, ht, List.length_append, List.length_append]
          omega

def bindTokens : List (Token (Fin 1)) :=
  [⟨"'bindsym", none, 0, 0⟩, ⟨"'bindcode", none, 0, 0⟩, ⟨"word", none, 0, 0⟩, ⟨"error", none, 0, 0⟩]

/-- With `error` last, the message ends in a separator. -/
theorem message_trailing_separator :
    errorMessage bindTokens = "Expected one of these tokens: 'bindsym', 'bindcode', <word>, ".toList := by
  decide

/-- `start_of_line (walk, input)`: one past the last CR or LF at or before
`walk`, or the start of the input. -/
def startOfLine (s : List Char) : Nat → Nat
  | 0 => if isLineEnd (cAt s 0) then 1 else 0
  | w + 1 => if isLineEnd (cAt s (w + 1)) then w + 2 else startOfLine s w

/-- The caret loop over the line starting at offset `i`: `^` from the cursor
on, a tab under a tab before it, a space otherwise, up to CR, LF or NUL. -/
def underline (walk : Nat) : Nat → List Char → List Char
  | _, [] => []
  | i, c :: cs =>
      if endsLine c then []
      else (if walk ≤ i then '^' else if c = '\t' then '\t' else ' ') :: underline walk (i + 1) cs

def errorPosition (s : List Char) (walk : Nat) : List Char :=
  underline walk (startOfLine s walk) (s.drop (startOfLine s walk))

theorem startOfLine_of_lineEnd {s : List Char} {p : Nat} (h : isLineEnd (cAt s p) = true) :
    startOfLine s p = p + 1 := by
  cases p <;> simp [startOfLine, h]

theorem startOfLine_spec {s : List Char} : ∀ {p : Nat}, isLineEnd (cAt s p) = false →
    startOfLine s p ≤ p ∧ (startOfLine s p = 0 ∨ isLineEnd (cAt s (startOfLine s p - 1)) = true) ∧
      ∀ j, startOfLine s p ≤ j → j < p → isLineEnd (cAt s j) = false
  | 0, h => by simp [startOfLine, h]
  | w + 1, h => by
      rw [startOfLine, if_neg (by simp [h])]
      cases hw : isLineEnd (cAt s w)
      · obtain ⟨h1, h2, h3⟩ := startOfLine_spec hw
        refine ⟨by omega, h2, fun j hj hjp => ?_⟩
        rcases Nat.lt_succ_iff_lt_or_eq.1 hjp with hjw | rfl
        · exact h3 j hj hjw
        · exact hw
      · rw [startOfLine_of_lineEnd hw]
        exact ⟨le_rfl, .inr (by simpa using hw), fun j hj hjp => absurd hjp (by omega)⟩

theorem underline_length (walk : Nat) : ∀ (i : Nat) (r : List Char),
    (underline walk i r).length = (r.takeWhile fun c => !endsLine c).length
  | _, [] => rfl
  | i, c :: cs => by
      unfold underline
      by_cases hc : endsLine c <;> simp [hc, underline_length walk (i + 1) cs]

theorem cAt_underline (walk : Nat) : ∀ (i : Nat) (r : List Char) (j : Nat),
    j < (r.takeWhile fun c => !endsLine c).length →
      cAt (underline walk i r) j = if walk ≤ i + j then '^' else if cAt r j = '\t' then '\t' else ' '
  | _, [], _, h => absurd h (by simp)
  | i, c :: cs, j, h => by
      by_cases hc : endsLine c
      · simp [hc] at h
      · rw [underline, if_neg hc]
        cases j with
        | zero => simp
        | succ j =>
            rw [List.takeWhile_cons_of_pos (by simpa using hc), List.length_cons] at h
            rw [cAt_cons_succ, cAt_underline walk (i + 1) cs j (by omega), cAt_cons_succ,
              Nat.add_assoc, Nat.add_comm 1 j]

def errorRecord (s : List Char) (tokens : List (Token σ)) (walk : Nat) : ErrorRecord :=
  ⟨errorMessage tokens, s, errorPosition s walk⟩

/-- `p` underlines the line of `s` that holds the cursor `walk`: it starts
under the line's first byte, runs to the line's CR, LF or NUL, and holds `^`
from the cursor's column on, a tab under each tab before it and a space
under every other byte. -/
def CaretLine (s : List Char) (walk : Nat) (p : List Char) : Prop :=
  ∃ q, q ≤ walk ∧ (q = 0 ∨ isLineEnd (cAt s (q - 1)) = true) ∧
    (∀ j, q ≤ j → j < walk → isLineEnd (cAt s j) = false) ∧
    p.length = ((s.drop q).takeWhile fun c => !endsLine c).length ∧
    ∀ j < p.length, cAt p j = if walk ≤ q + j then '^' else if cAt s (q + j) = '\t' then '\t' else ' '

theorem errorPosition_caretLine {s : List Char} {walk : Nat} (h : isLineEnd (cAt s walk) = false) :
    CaretLine s walk (errorPosition s walk) := by
  obtain ⟨hle, hstart, hline⟩ := startOfLine_spec h
  have hlen := underline_length walk (startOfLine s walk) (s.drop (startOfLine s walk))
  refine ⟨_, hle, hstart, hline, hlen, fun j hj => ?_⟩
  rw [errorPosition, cAt_underline walk _ _ j (hlen ▸ hj), cAt_drop]

end I3Config.Report

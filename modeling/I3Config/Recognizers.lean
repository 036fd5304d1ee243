import I3Config.Progress

namespace I3Config.Recognizers

open CString ValueStack Tables Lexer Driver Progress

variable {σ : Type}

theorem strtol_cons_space {c : Char} (hc : isspace c = true) (rest : List Char) :
    strtol (c :: rest) = (strtol rest).map fun r => (r.1 + 1, r.2) := by
  simp only [strtol, List.takeWhile_cons_of_pos hc, List.dropWhile_cons_of_pos hc, List.length_cons,
    Option.map_map]
  congr 1
  funext r
  simp only [Function.comp_apply, Prod.mk.injEq, and_true]
  omega

theorem matchNumber_cons_space {c : Char} (hc : isspace c = true) (rest : List Char) :
    matchNumber (c :: rest) = (matchNumber rest).map fun r => (r.1 + 1, r.2) := by
  unfold matchNumber
  rw [strtol_cons_space hc]
  rcases strtol rest with _ | ⟨n, v⟩ <;> simp only [Option.map_none', Option.map_some']
  split_ifs <;> rfl

/-- `strtol` skips every `isspace` byte, line feeds included, so at a line
feed the `number` descriptor takes a number from the next line. -/
theorem number_reads_next_line (t : Token σ) (ht : t.name = "number") (s : List Char) (w : Nat)
    (hlf : cAt s w = '\n') {n : Nat} {v : Int} (hn : matchNumber (s.drop (w + 1)) = some (n, v)) :
    skipWhitespace (s.drop w) = 0 ∧ tryToken s t w = .taken (w + 1 + n) (some (.long v)) false := by
  have hw : w < s.length := cAt_lt_length hlf (by decide)
  have hs : s.drop w = '\n' :: s.drop (w + 1) := by
    rw [List.drop_eq_getElem_cons hw]
    simp only [cAt, List.getD_eq_getElem?_getD, List.getElem?_eq_getElem hw, Option.getD_some] at hlf
    rw [hlf]
  refine ⟨by simp [skipWhitespace, hs], ?_⟩
  simp [tryToken, isLiteral, ht, hs, matchNumber_cons_space (show isspace '\n' = true by decide), hn,
    Nat.add_assoc]
  omega

theorem number_reads_next_line_five :
    skipWhitespace ("\n5".toList.drop 0) = 0 ∧
      tryToken "\n5".toList (⟨"number", some "num", 0, 0⟩ : Token (Fin 1)) 0 = .taken 2 (some (.long 5)) false :=
  @number_reads_next_line (Fin 1) ⟨"number", some "num", 0, 0⟩ rfl "\n5".toList 0 (by decide) 1 5 (by decide)

/-- With the `workspace` grammar, `workspace` and `5` on two lines are one
directive: the `number` descriptor reads past the line feed. Apart, the first
line reaches its end in `INITIAL` through `end` after one error, and the second
is one error. -/
theorem number_joins_lines :
    (∃ c, (run workspaceGrammar stackStore 3 (begin workspaceGrammar
        (initGlobals workspaceGrammar stackStore) "workspace\n".toList)).final = .running c ∧
        c.walk = 10 ∧ c.state = workspaceGrammar.INITIAL) ∧
      (∃ c, (run workspaceGrammar stackStore 16 (begin workspaceGrammar
        (initGlobals workspaceGrammar stackStore) "workspace\n5\n".toList)).final = .done c) ∧
      readsOf "num" (run workspaceGrammar stackStore 16 (begin workspaceGrammar
        (initGlobals workspaceGrammar stackStore) "workspace\n5\n".toList)).events = [some (.long 5)] ∧
      errorWalks (run workspaceGrammar stackStore 16 (begin workspaceGrammar
        (initGlobals workspaceGrammar stackStore) "workspace\n5\n".toList)).events = [] ∧
      (∃ c, (run workspaceGrammar stackStore 16 (begin workspaceGrammar
        (initGlobals workspaceGrammar stackStore) "workspace\n".toList)).final = .done c) ∧
      readsOf "num" (run workspaceGrammar stackStore 16 (begin workspaceGrammar
        (initGlobals workspaceGrammar stackStore) "workspace\n".toList)).events = [] ∧
      errorWalks (run workspaceGrammar stackStore 16 (begin workspaceGrammar
        (initGlobals workspaceGrammar stackStore) "workspace\n".toList)).events = [9] ∧
      (∃ c, (run workspaceGrammar stackStore 16 (begin workspaceGrammar
        (initGlobals workspaceGrammar stackStore) "5\n".toList)).final = .done c) ∧
      readsOf "num" (run workspaceGrammar stackStore 16 (begin workspaceGrammar
        (initGlobals workspaceGrammar stackStore) "5\n".toList)).events = [] ∧
      errorWalks (run workspaceGrammar stackStore 16 (begin workspaceGrammar
        (initGlobals workspaceGrammar stackStore) "5\n".toList)).events = [0] :=
  ⟨⟨_, rfl, rfl, rfl⟩, ⟨_, rfl⟩, by decide, by decide, ⟨_, rfl⟩, by decide, by decide, ⟨_, rfl⟩, by decide,
    by decide⟩

theorem tryToken_quoted {s : List Char} {t : Token σ} (ht : t.name = "string" ∨ t.name = "word")
    {w : Nat} {body : List Char} (hs : s.drop w = '"' :: body) :
    tryToken s t w = finishMatch (w + 1) (scanQuoted '"' body) body := by
  rcases ht with ht | ht <;> simp [tryToken, isLiteral, ht, matchQuotable, hs]

/-- A `string` or `word` descriptor at an empty quoted string, or at a lone
double quote before the end, does not match but leaves the cursor one byte on,
where the next descriptor of the state is then tried. -/
theorem quoted_miss_moves_cursor (t : Token σ) (ht : t.name = "string" ∨ t.name = "word")
    (s : List Char) (w : Nat) (body : List Char) (hs : s.drop w = '"' :: body)
    (he : cAt body 0 = '"' ∨ cAt body 0 = '\x00') :
    tryToken s t w = .passed (w + 1) ∧ ∀ ts, matchTokens s (t :: ts) w = matchTokens s ts (w + 1) := by
  have h0 : scanQuoted '"' body = 0 := by
    rcases body with _ | ⟨c, body⟩
    · rfl
    · simp only [cAt_cons_zero] at he
      rcases he with rfl | rfl <;> rfl
  have ht' : tryToken s t w = .passed (w + 1) := by
    rw [tryToken_quoted ht hs, h0]; rfl
  exact ⟨ht', fun ts => by simp only [matchTokens, ht']⟩

theorem quoted_miss_moves_cursor_empty :
    tryToken ['"', '"'] (⟨"word", none, 0, 0⟩ : Token (Fin 1)) 0 = .passed 1 ∧
      ∀ ts, matchTokens ['"', '"'] ((⟨"word", none, 0, 0⟩ : Token (Fin 1)) :: ts) 0 =
        matchTokens ['"', '"'] ts 1 :=
  quoted_miss_moves_cursor _ (.inr rfl) ['"', '"'] 0 ['"'] rfl (.inl rfl)

example : matchTokens ['"'] [(⟨"word", none, 0, 0⟩ : Token (Fin 1)), ⟨"end", none, 0, 0⟩] 0 =
    .matched ⟨"end", none, 0, 0⟩ 2 none true := by decide

/-- A value written as the inside of a quoted string: a backslash before every
double quote. -/
def esc : List Char → List Char
  | [] => []
  | c :: v => if c = '"' then '\\' :: '"' :: esc v else c :: esc v

theorem esc_head (v : List Char) : (esc v).head? ≠ some '"' := by
  cases v with
  | nil => simp [esc]
  | cons c v => unfold esc; split_ifs with h <;> simp [h]

theorem unescape_pair (n : Nat) (rest : List Char) :
    unescape (n + 2) ('\\' :: '"' :: rest) = '"' :: unescape n rest := by
  cases n <;> rfl

theorem unescape_cons (n : Nat) {c : Char} {rest : List Char} (h : ¬(c = '\\' ∧ rest.head? = some '"')) :
    unescape (n + 1) (c :: rest) = c :: unescape n rest := by
  conv_lhs => unfold unescape
  split <;> simp_all

theorem scanQuoted_esc (r : List Char) :
    ∀ (v : List Char) (p : Char), '\x00' ∉ v → (p :: v).getLast? ≠ some '\\' →
      scanQuoted p (esc v ++ '"' :: r) = (esc v).length
  | [], p, _, hp => by simp_all [scanQuoted, esc]
  | c :: v, p, hn, hp => by
      simp only [List.mem_cons, not_or] at hn
      have ih := scanQuoted_esc r v c hn.2 (by simpa using hp)
      unfold esc
      split_ifs with hc
      · subst hc; simp [scanQuoted, ih]
      · simp [scanQuoted, hc, Ne.symm hn.1, ih]

theorem unescape_esc (r : List Char) :
    ∀ v : List Char, v.getLast? ≠ some '\\' → unescape (esc v).length (esc v ++ '"' :: r) = v
  | [], _ => rfl
  | c :: v, hl => by
      have ih := unescape_esc r v (by cases v <;> simp_all)
      unfold esc
      split_ifs with hc
      · subst hc; simp only [List.length_cons, List.cons_append, unescape_pair, ih]
      · have hd : ¬(c = '\\' ∧ (esc v ++ '"' :: r).head? = some '"') := by
          rintro ⟨rfl, hq⟩
          cases v with
          | nil => simp at hl
          | cons d v =>
              have : esc (d :: v) ≠ [] := by unfold esc; split_ifs <;> simp
              simp [List.head?_append, esc_head, this] at hq
        simp only [List.length_cons, List.cons_append, unescape_cons _ hd, ih]

theorem scanQuoted_eq_succ {p c : Char} {rest : List Char} {k : Nat}
    (h : scanQuoted p (c :: rest) = k + 1) : c ≠ '\x00' ∧ (c = '"' → p = '\\') ∧ scanQuoted c rest = k := by
  unfold scanQuoted at h
  split_ifs at h with hc
  push_neg at hc
  exact ⟨hc.1, hc.2, by omega⟩

theorem esc_unescape_step {c : Char} {cs rest : List Char} (hc : c ≠ '"')
    (hpair : ¬(c = '\\' ∧ rest.head? = some '"')) (ih : esc (unescape cs.length rest) = cs) :
    esc (unescape (c :: cs).length (c :: rest)) = c :: cs := by
  rw [List.length_cons, unescape_cons _ hpair]
  simp [esc, hc, ih]

theorem esc_unescape (r : List Char) :
    ∀ (content : List Char) (p : Char), (content.head? = some '"' → p ≠ '\\') →
      scanQuoted p (content ++ '"' :: r) = content.length →
      esc (unescape content.length (content ++ '"' :: r)) = content
  | [], _, _, _ => rfl
  | [c], p, hp, hs => by
      obtain ⟨-, hq, h0⟩ := scanQuoted_eq_succ hs
      have hc : c ≠ '"' := fun h => hp (by simp [h]) (hq h)
      have hb : c ≠ '\\' := by rintro rfl; simp [scanQuoted] at h0
      exact esc_unescape_step hc (by simp [hb]) rfl
  | c :: d :: cs, p, hp, hs => by
      obtain ⟨-, hq, hs'⟩ := scanQuoted_eq_succ hs
      have hc : c ≠ '"' := fun h => hp (by simp [h]) (hq h)
      by_cases hcd : c = '\\' ∧ d = '"'
      · obtain ⟨rfl, rfl⟩ := hcd
        obtain ⟨-, -, hs''⟩ := scanQuoted_eq_succ hs'
        simp only [List.length_cons, List.cons_append, unescape_pair]
        simp [esc, esc_unescape r cs '"' (by simp) hs'']
      · exact esc_unescape_step hc (by simpa using hcd)
          (esc_unescape r (d :: cs) c (fun h hb => hcd ⟨hb, by simpa using h⟩) hs')

theorem cAt_append_length (l r : List Char) (c : Char) : cAt (l ++ c :: r) l.length = c := by
  induction l with
  | nil => rfl
  | cons a l ih => simpa using ih

/-- A `string` or `word` descriptor reads back exactly the value whose escaped
form stands between the quotes, and stops after the closing quote; and where
its scan stops at a closing quote, the escaped value is the text between. -/
theorem quoted_round_trip (t : Token σ) (ht : t.name = "string" ∨ t.name = "word") :
    (∀ v r s w, v ≠ [] → '\x00' ∉ v → v.getLast? ≠ some '\\' → s.drop w = '"' :: (esc v ++ '"' :: r) →
      tryToken s t w = .taken (w + (esc v).length + 2) (some (.str v)) false) ∧
    (∀ content r s w w' value nl, s.drop w = '"' :: (content ++ '"' :: r) →
      scanQuoted '"' (content ++ '"' :: r) = content.length →
      tryToken s t w = .taken w' (some (.str value)) nl → esc value = content ∧ w' = w + content.length + 2) := by
  constructor
  · intro v r s w hv hn hl hs
    have hscan := scanQuoted_esc r v '"' hn (by cases v <;> simp_all)
    have hpos : (esc v).length ≠ 0 := by
      cases v with
      | nil => exact absurd rfl hv
      | cons c v => unfold esc; split_ifs <;> simp
    rw [tryToken_quoted ht hs, hscan, finishMatch, if_neg hpos, cAt_append_length, if_pos rfl,
      unescape_esc r v hl]
    congr 1
    omega
  · intro content r s w w' value nl hs hscan h
    rw [tryToken_quoted ht hs, hscan, finishMatch, cAt_append_length, if_pos rfl] at h
    split_ifs at h
    cases h
    exact ⟨esc_unescape r content '"' (by simp) hscan, by omega⟩

theorem quoted_round_trip_escaped_quote :
    tryToken ['"', 'a', '\\', '"', '"'] (⟨"word", none, 0, 0⟩ : Token (Fin 1)) 0 =
      .taken 5 (some (.str ['a', '"'])) false :=
  (quoted_round_trip _ (.inr rfl)).1 ['a', '"'] [] _ 0 (by simp) (by decide) (by decide) rfl

end I3Config.Recognizers
import I3Config.Blanks
import I3Config.Progress

namespace I3Config.Indentation

open CString ValueStack Tables Lexer Report Driver Progress Blanks

variable {σ κ : Type} {ins : Nat → List Char}

theorem untilNewline_insertBlanks : ∀ (p : Nat) (r : List Char),
    untilNewline (insertBlanks ins p r) = untilNewline r
  | _, [] => rfl
  | p, c :: cs => by
      by_cases hc : c = '\n'
      · subst hc; rfl
      · simp only [insertBlanks, if_neg hc, List.nil_append, untilNewline, untilNewline_insertBlanks (p + 1) cs]

theorem not_mem_take_untilNewline : ∀ r : List Char, '\n' ∉ r.take (untilNewline r)
  | [] => by simp
  | c :: cs => by
      unfold untilNewline
      split_ifs with hc
      · simp
      · simpa [Ne.symm hc] using not_mem_take_untilNewline cs

theorem resumes_untilNewline (hins : ∀ j, Blank (ins j)) (p : Nat) (r : List Char) :
    Resumes ins p r (insertBlanks ins p r) (untilNewline r) (untilNewline r) := by
  rcases untilNewline_spec r with h | h
  · exact resumes_aligned (cAt_lt_length h (by decide)).le (not_mem_take_untilNewline r)
  · have hr : '\n' ∉ r.take r.length := by
      simpa [h, List.take_of_length_le] using not_mem_take_untilNewline r
    rw [h]
    exact resumes_line_end hins hr

theorem skipWhitespace_blanks {pre : List Char} (hpre : Blank pre) (p : Nat) (r : List Char) :
    skipWhitespace (pre ++ insertBlanks ins p r) = pre.length + skipWhitespace r ∧
      (pre ++ insertBlanks ins p r).drop (pre.length + skipWhitespace r) =
        insertBlanks ins (p + skipWhitespace r) (r.drop (skipWhitespace r)) := by
  have hP : ∀ x ∈ pre, (fun c => c = ' ' || c = '\t') x = true := fun x hx => by
    rcases hpre x hx with rfl | rfl <;> rfl
  refine ⟨?_, ?_⟩
  · simp only [skipWhitespace, List.takeWhile_append_of_pos hP, List.length_append,
      takeWhile_insertBlanks ins (P := fun c => c = ' ' || c = '\t') rfl]
  · rw [List.drop_append]
    exact drop_insertBlanks ins (not_mem_takeWhile (P := fun c => c = ' ' || c = '\t') rfl r) p

/-- An event without its byte offsets: the handler called with the values it
can read, or the line number of an error record. -/
inductive Observation
  | call (callIdentifier : UInt16) (view : View)
  | error (linecnt : Nat)

def observe : Event → Observation
  | .call i v => .call i v
  | .error _ linecnt _ => .error linecnt

variable (ins)

/-- A point of the loop on an input and one on the input with blanks: the same
static variables and line count, and cursors where the rest of the two inputs
differs only by blanks. -/
def Tracks (c c' : Config σ κ) : Prop :=
  c.toGlobals = c'.toGlobals ∧ c.linecnt = c'.linecnt ∧ Resumes ins 0 c.input c'.input c.walk c'.walk

def StepTracks : Outcome σ κ → Outcome σ κ → Prop
  | .next d ev, .next d' ev' => Tracks ins d d' ∧ ev.map observe = ev'.map observe
  | .abort r ev, .abort r' ev' => r = r' ∧ ev.map observe = ev'.map observe
  | _, _ => False

def FinalTracks : Final σ κ → Final σ κ → Prop
  | .done d, .done d' => Tracks ins d d'
  | .running d, .running d' => Tracks ins d d'
  | .abort r, .abort r' => r = r'
  | _, _ => False

def QuietIn (s : List Char) (span : Nat × Nat) : Prop :=
  ∀ j, span.1 < j → j < span.2 → cAt s j = '\n' → ins (j + 1) = []

variable {ins}

theorem matchTokens_at (s : List Char) (ts : List (Token σ)) (t : Nat) :
    matchTokens s ts t = shiftAttempt t (matchTokens (s.drop t) ts 0) := by
  simpa using matchTokens_add s t ts 0

theorem quietSpans_of_quietIn {s : List Char} {ts : List (Token σ)} {t : Nat}
    (hq : ∀ span ∈ (quotedMatch s ts t).toList, QuietIn ins s span) : QuietSpans ins t (s.drop t) ts := by
  intro a e h j haj hje hlf
  have hm := quotedMatch_add s t ts 0
  rw [Nat.add_zero, h, Option.map_some'] at hm
  exact hq (t + a, t + e) (by simp [hm]) (t + j) (by simp only; omega) (by simp only; omega)
    (by rwa [← cAt_drop])

theorem tokenStart_tracks {c c' : Config σ κ} (ht : Tracks ins c c') (hw : c.walk ≤ c.input.length) :
    tokenStart c ≤ c.input.length ∧ tokenStart c' ≤ c'.input.length ∧
      c'.input.drop (tokenStart c') = insertBlanks ins (tokenStart c) (c.input.drop (tokenStart c)) := by
  obtain ⟨-, -, hlen, pre, hpre, hdrop⟩ := ht
  refine ⟨(tokenStart_bounds hw).2, (tokenStart_bounds (hlen.1 hw)).2, ?_⟩
  obtain ⟨hk, hd⟩ := skipWhitespace_blanks hpre (0 + c.walk) (c.input.drop c.walk)
  unfold tokenStart
  rw [hdrop, hk, ← List.drop_drop, hdrop, hd, List.drop_drop, Nat.zero_add]

variable [DecidableEq σ] (g : Grammar σ) (S : CaptureStore κ)

/-- The quoted `string` and `word` matches of a run: from the opening quote to
the offset after the match. -/
def quotedSpans : Nat → Config σ κ → List (Nat × Nat)
  | 0, _ => []
  | fuel + 1, c =>
      if c.walk ≤ c.input.length then
        (quotedMatch c.input (g.tokens c.state) (tokenStart c)).toList ++
          match step g S c with
          | .next c' _ => quotedSpans fuel c'
          | .abort _ _ => []
      else []

theorem advance_tracks {c c' : Config σ κ} (hG : c.toGlobals = c'.toGlobals) (hl : c.linecnt = c'.linecnt)
    (t : Token σ) {w w' : Nat} (v : Option StackVal) (nl : Bool) (hres : Resumes ins 0 c.input c'.input w w') :
    StepTracks ins (advance g S c t w v nl) (advance g S c' t w' v nl) := by
  rcases c with ⟨G, s, walk, l⟩
  rcases c' with ⟨G', s', walk', l'⟩
  obtain rfl : G = G' := hG
  obtain rfl : l = l' := hl
  unfold advance
  cases capture S t v G.stack with
  | error r => exact ⟨rfl, rfl⟩
  | ok k =>
      dsimp only
      split_ifs
      · exact ⟨rfl, rfl⟩
      all_goals exact ⟨⟨rfl, rfl, hres⟩, rfl⟩

theorem resumes_skipLine (hins : ∀ j, Blank (ins j)) {s s' : List Char} {w w' : Nat} (hw : w ≤ s.length)
    (hw' : w' ≤ s'.length) (hdrop : s'.drop w' = insertBlanks ins w (s.drop w)) :
    Resumes ins 0 s s' (skipLine s w) (skipLine s' w') := by
  unfold skipLine
  rw [hdrop, untilNewline_insertBlanks]
  refine resumes_shift hw hw' ?_
  rw [hdrop, Nat.zero_add]
  exact resumes_untilNewline hins w _

theorem recover_tracks (hins : ∀ j, Blank (ins j)) {c c' : Config σ κ} (hG : c.toGlobals = c'.toGlobals)
    (hl : c.linecnt = c'.linecnt) {w w' : Nat} (hw : w ≤ c.input.length) (hw' : w' ≤ c'.input.length)
    (hdrop : c'.input.drop w' = insertBlanks ins w (c.input.drop w)) :
    StepTracks ins (recover g S c w) (recover g S c' w') := by
  rcases c with ⟨G, s, walk, l⟩
  rcases c' with ⟨G', s', walk', l'⟩
  obtain rfl : G = G' := hG
  obtain rfl : l = l' := hl
  unfold recover
  cases findErrorToken g G.statelist with
  | none => exact ⟨rfl, rfl⟩
  | some t =>
      dsimp only
      split_ifs
      · exact ⟨rfl, rfl⟩
      · exact ⟨⟨rfl, rfl, resumes_skipLine hins hw hw' hdrop⟩, rfl⟩

theorem step_tracks (hins : ∀ j, Blank (ins j)) {c c' : Config σ κ}
    (hlit : ∀ t ∈ g.tokens c.state, isLiteral t → '\n' ∉ (spelling t).dropLast) (ht : Tracks ins c c')
    (hw : c.walk ≤ c.input.length)
    (hq : ∀ span ∈ (quotedMatch c.input (g.tokens c.state) (tokenStart c)).toList, QuietIn ins c.input span) :
    StepTracks ins (step g S c) (step g S c') := by
  obtain ⟨hts, hts', hdrop⟩ := tokenStart_tracks ht hw
  have hA := matchTokens_agrees hins hlit (fun t ht => fun h => g.names_nul_free _ t ht (List.mem_of_mem_tail h))
    (quietSpans_of_quietIn hq)
  rw [← hdrop] at hA
  have hst : c'.state = c.state := (congrArg Globals.state ht.1).symm
  unfold step
  rw [hst, matchTokens_at c.input, matchTokens_at c'.input]
  rcases hm : matchTokens (c.input.drop (tokenStart c)) (g.tokens c.state) 0 with ⟨t, w, v, nl⟩ | w <;>
    rcases hm' : matchTokens (c'.input.drop (tokenStart c')) (g.tokens c.state) 0 with ⟨t', w', v', nl'⟩ | w' <;>
    rw [hm, hm'] at hA <;> simp only [AttemptAgrees] at hA <;> dsimp only [shiftAttempt]
  · obtain ⟨rfl, rfl, rfl, hres⟩ := hA
    exact advance_tracks g S ht.1 ht.2.1 t v nl (resumes_shift hts hts' (by rwa [Nat.zero_add]))
  · obtain ⟨rfl, hd⟩ := hA
    have hb := (matchTokens_unmatched (Nat.zero_le _) hm).2
    have hb' := (matchTokens_unmatched (Nat.zero_le _) hm').2
    simp only [List.length_drop, List.drop_drop] at hb hb' hd
    exact recover_tracks g S hins ht.1 ht.2.1 (by omega) (by omega) hd

theorem run_tracks (hins : ∀ j, Blank (ins j))
    (hlit : ∀ st, ∀ t ∈ g.tokens st, isLiteral t → '\n' ∉ (spelling t).dropLast) :
    ∀ (n : Nat) {c c' : Config σ κ}, Tracks ins c c' → (∀ span ∈ quotedSpans g S n c, QuietIn ins c.input span) →
      (run g S n c).events.map observe = (run g S n c').events.map observe ∧
        FinalTracks ins (run g S n c).final (run g S n c').final
  | 0, c, c', ht, _ => by
      refine ⟨rfl, ?_⟩
      simp only [run]
      by_cases hw : c.walk ≤ c.input.length
      · rw [if_pos hw, if_pos (ht.2.2.1.1 hw)]; exact ht
      · rw [if_neg hw, if_neg (mt ht.2.2.1.2 hw)]; exact ht
  | n + 1, c, c', ht, hq => by
      simp only [run]
      by_cases hw : c.walk ≤ c.input.length
      · rw [if_pos hw, if_pos (ht.2.2.1.1 hw)]
        rw [quotedSpans, if_pos hw] at hq
        have hs := step_tracks g S hins (hlit c.state) ht hw fun span h => hq span (List.mem_append_left _ h)
        rcases hst : step g S c with ⟨d, ev⟩ | ⟨r, ev⟩ <;> rcases hst' : step g S c' with ⟨d', ev'⟩ | ⟨r', ev'⟩ <;>
          rw [hst, hst'] at hs <;> simp only [StepTracks] at hs
        · have hin : d.input = c.input := (step_cases hst).1
          obtain ⟨ih1, ih2⟩ := run_tracks hins hlit n hs.1 fun span h =>
            hin ▸ hq span (List.mem_append_right _ (by simpa only [hst] using h))
          simp only [List.map_append, hs.2, ih1]
          exact ⟨trivial, ih2⟩
        · exact ⟨hs.2, hs.1⟩
      · rw [if_neg hw, if_neg (mt ht.2.2.1.2 hw)]
        exact ⟨rfl, ht⟩

omit [DecidableEq σ] in
theorem tracks_begin (hins : ∀ j, Blank (ins j)) (G : Globals σ κ) (s : List Char) :
    Tracks ins (begin g G s) (begin g G (indentBy ins s)) :=
  ⟨rfl, rfl, iff_of_true (Nat.zero_le _) (Nat.zero_le _), ins 0, hins 0, by simp [begin, indentBy]⟩

/-- Blanks at the start of the input and after its line feeds, none inside a
quoted match, change neither the handler calls with what they read nor the line
numbers of the error records, for grammars whose literals hold a line feed at
most as their last byte; the two parses also end alike. -/
theorem indented_parse_agrees (hins : ∀ j, Blank (ins j))
    (hlit : ∀ st, ∀ t ∈ g.tokens st, isLiteral t → '\n' ∉ (spelling t).dropLast)
    (G : Globals σ κ) (s : List Char) (n : Nat) (hq : ∀ span ∈ quotedSpans g S n (begin g G s), QuietIn ins s span) :
    (run g S n (begin g G s)).events.map observe = (run g S n (begin g G (indentBy ins s))).events.map observe ∧
      FinalTracks ins (run g S n (begin g G s)).final (run g S n (begin g G (indentBy ins s))).final :=
  run_tracks g S hins hlit n (tracks_begin g hins G s) hq

theorem indented_parse_agrees_workspace :
    (run workspaceGrammar stackStore 16 (begin workspaceGrammar (initGlobals workspaceGrammar stackStore)
        "workspace 5\n".toList)).events.map observe =
      (run workspaceGrammar stackStore 16 (begin workspaceGrammar (initGlobals workspaceGrammar stackStore)
        (indentBy (fun _ => [' ']) "workspace 5\n".toList))).events.map observe :=
  (indented_parse_agrees workspaceGrammar stackStore (fun _ c hc => .inl (List.mem_singleton.1 hc)) (by decide) _ _ 16
    fun span h => by
      rw [show quotedSpans workspaceGrammar stackStore 16 (begin workspaceGrammar
        (initGlobals workspaceGrammar stackStore) "workspace 5\n".toList) = [] from rfl] at h
      cases h).1

/-- `INITIAL` (0) calls handler 0 on the literal `x`, line feed, `y`, and
accepts `end`; 1 is `__CALL`. -/
def splitLiteralGrammar : Grammar (Fin 2) where
  INITIAL := 0
  CALL := 1
  tokens st := if st = 0 then [⟨"'x\ny", none, 1, 0⟩, ⟨"end", none, 0, 0⟩, ⟨"error", none, 0, 0⟩] else []
  call _ _ := 0
  names_nul_free := by decide

/-- A literal with a line feed before its last byte: on `x`, line feed, `y` the
handler is called once; with a blank after the line feed the literal no longer
matches and two errors are reported instead. -/
theorem split_literal_misses :
    (∀ j, Blank (if j = 2 then [' '] else [])) ∧
      (∀ span ∈ quotedSpans splitLiteralGrammar stackStore 8
          (begin splitLiteralGrammar (initGlobals splitLiteralGrammar stackStore) "x\ny".toList),
        QuietIn (fun j => if j = 2 then [' '] else []) "x\ny".toList span) ∧
      (run splitLiteralGrammar stackStore 8
          (begin splitLiteralGrammar (initGlobals splitLiteralGrammar stackStore) "x\ny".toList)).events.map observe ≠
        (run splitLiteralGrammar stackStore 8 (begin splitLiteralGrammar (initGlobals splitLiteralGrammar stackStore)
          (indentBy (fun j => if j = 2 then [' '] else []) "x\ny".toList))).events.map observe := by
  refine ⟨fun j c hc => ?_, fun span h => ?_, fun h => absurd (congrArg List.length h) (by decide)⟩
  · split_ifs at hc <;> simp_all
  · rw [show quotedSpans splitLiteralGrammar stackStore 8 (begin splitLiteralGrammar
      (initGlobals splitLiteralGrammar stackStore) "x\ny".toList) = [] from rfl] at h
    cases h

end I3Config.Indentation
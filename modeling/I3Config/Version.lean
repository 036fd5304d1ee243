import I3Config.CString

namespace I3Config.Version

open CString

/-- `strchr (s, c)` for a byte `c` other than NUL: the string from the first
occurrence of `c`, or `none` once the terminating NUL is reached. -/
def strchr (c : Char) : List Char → Option (List Char)
  | [] => none
  | d :: ds => if d = c then some (d :: ds) else if d = '\x00' then none else strchr c ds

/-- The loop `while ((*bind == ' ' || *bind == '\t') && *bind != '\0') bind++`. -/
def skipBlanks (s : List Char) : List Char := s.dropWhile fun c => c = ' ' || c = '\t'

/-- `strncasecmp (s, key, strlen (key)) == 0`. -/
def hasPrefix (s : List Char) (key : String) : Bool := strncasecmp s key.toList key.length

def v4Statements : List String :=
  ["bindcode", "force_focus_wrapping", "# i3 config file (v4)", "workspace_layout"]

def v4Commands : List String :=
  ["layout", "floating", "workspace", "focus left", "focus right", "focus up", "focus down",
    "border normal", "border 1pixel", "border pixel", "border borderless", "--no-startup-id", "bar"]

/-- The command of a `bind` line: past the first space, the blanks, the next
space and the blanks again. Both `strchr` calls search to the end of the
buffer, not of the line. -/
def bindCommand (line : List Char) : Option (List Char) := do
  let b := skipBlanks (← strchr ' ' line)
  guard (cAt b 0 ≠ '\x00')
  let b := skipBlanks (← strchr ' ' b)
  guard (cAt b 0 ≠ '\x00')
  pure b

/-- The test `detect_version` makes at a line feed, on the buffer from the
start of the line. -/
def v4Line (line : List Char) : Bool :=
  v4Statements.any (hasPrefix line) ||
    hasPrefix line "bind" && match bindCommand line with
      | some b => v4Commands.any (hasPrefix b)
      | none => false

/-- The `while (*walk != '\0')` loop, with `line` the buffer from the start of
the current line and the list the buffer from `walk`. -/
def detectLoop (line : List Char) : List Char → Nat
  | [] => 3
  | c :: cs =>
      if c = '\x00' then 3
      else if c ≠ '\n' then detectLoop line cs
      else if v4Line line then 4
      else detectLoop cs cs

def detectVersion (buf : List Char) : Nat := detectLoop buf buf

/-- `buf` has a line, ended by a line feed with no NUL before it, on which
`detect_version` decides for version 4. -/
def HasV4Line (buf : List Char) : Prop :=
  ∃ pre line post, buf = pre ++ line ++ '\n' :: post ∧ '\x00' ∉ pre ++ line ∧ '\n' ∉ line ∧
    (pre = [] ∨ ∃ p, pre = p ++ ['\n']) ∧ v4Line (line ++ '\n' :: post) = true

theorem append_cons_eq_append_cons {seg a cs b : List Char} {c d : Char} (hs : d ∉ seg)
    (h : seg ++ c :: cs = a ++ d :: b) : (a = seg ∧ c = d ∧ cs = b) ∨ ∃ q, a = seg ++ c :: q ∧ cs = q ++ d :: b := by
  rcases List.append_eq_append_iff.1 h with ⟨a', rfl, e⟩ | ⟨c', rfl, e⟩
  · cases a' with
    | nil => simp only [List.nil_append, List.cons.injEq] at e; exact .inl ⟨by simp, e⟩
    | cons x q => simp only [List.cons_append, List.cons.injEq] at e; exact .inr ⟨q, e.1 ▸ rfl, e.2⟩
  · cases c' with
    | nil => simp only [List.nil_append, List.cons.injEq] at e; exact .inl ⟨by simp, e.1.symm, e.2.symm⟩
    | cons x q => simp only [List.cons_append, List.cons.injEq] at e; simp [e.1] at hs

theorem not_hasV4Line_of_lf_free {seg : List Char} (hs : '\n' ∉ seg) : ¬ HasV4Line seg := by
  rintro ⟨pre, line, post, rfl, -⟩
  simp at hs

theorem not_hasV4Line_of_nul {seg cs : List Char} (hs : '\n' ∉ seg) : ¬ HasV4Line (seg ++ '\x00' :: cs) := by
  rintro ⟨pre, line, post, h, hnul, -⟩
  rw [List.append_assoc] at h
  rcases append_cons_eq_append_cons hs (h.trans (List.append_assoc _ _ _).symm) with ⟨-, hc, -⟩ | ⟨q, hq, -⟩
  · exact absurd hc (by decide)
  · simp [hq] at hnul

theorem hasV4Line_lf {seg cs : List Char} (hl : '\n' ∉ seg) (hn : '\x00' ∉ seg) :
    HasV4Line (seg ++ '\n' :: cs) ↔ v4Line (seg ++ '\n' :: cs) = true ∨ HasV4Line cs := by
  constructor
  · rintro ⟨pre, line, post, h, hnul, hline, hpre, hv⟩
    rw [List.append_assoc] at h
    rcases append_cons_eq_append_cons hl (h.trans (List.append_assoc _ _ _).symm) with
      ⟨hs, -, rfl⟩ | ⟨q, hq, rfl⟩
    · rcases hpre with rfl | ⟨p, rfl⟩
      · simp only [List.nil_append] at hs
        exact .inl (hs ▸ hv)
      · simp [← hs] at hl
    · rcases hpre with rfl | ⟨p, rfl⟩
      · simp only [List.nil_append] at hq
        simp [hq] at hline
      · simp only [List.append_assoc, List.singleton_append] at hq
        rcases append_cons_eq_append_cons hl hq.symm with ⟨-, -, rfl⟩ | ⟨r, rfl, rfl⟩
        · exact .inr ⟨[], q, post, rfl, by simp_all, hline, .inl rfl, hv⟩
        · exact .inr ⟨r ++ ['\n'], line, post, by simp, by simp_all, hline, .inr ⟨r, rfl⟩, hv⟩
  · rintro (hv | ⟨pre, line, post, rfl, hnul, hline, hpre, hv⟩)
    · exact ⟨[], seg, cs, rfl, by simpa using hn, hl, .inl rfl, hv⟩
    · refine ⟨seg ++ '\n' :: pre, line, post, by simp, by simp_all, hline, .inr ?_, hv⟩
      rcases hpre with rfl | ⟨p, rfl⟩
      · exact ⟨seg, rfl⟩
      · exact ⟨seg ++ '\n' :: p, by simp⟩

theorem detectLoop_eq_four : ∀ (w seg : List Char), '\n' ∉ seg → '\x00' ∉ seg →
    (detectLoop (seg ++ w) w = 4 ↔ HasV4Line (seg ++ w))
  | [], seg, hl, _ => by
      simp only [detectLoop, List.append_nil, Nat.reduceEqDiff, false_iff]
      exact not_hasV4Line_of_lf_free hl
  | c :: cs, seg, hl, hn => by
      unfold detectLoop
      by_cases hc : c = '\x00'
      · subst hc
        simp only [if_true, Nat.reduceEqDiff, false_iff]
        exact not_hasV4Line_of_nul hl
      by_cases hlf : c = '\n'
      · subst hlf
        rw [if_neg hc, if_neg (not_not.2 rfl), hasV4Line_lf hl hn]
        by_cases hv : v4Line (seg ++ '\n' :: cs) = true
        · simp [hv]
        · simpa [hv] using detectLoop_eq_four cs [] (List.not_mem_nil _) (List.not_mem_nil _)
      · rw [if_neg hc, if_pos hlf, show seg ++ c :: cs = (seg ++ [c]) ++ cs by simp]
        exact detectLoop_eq_four cs (seg ++ [c]) (by simp [hl, Ne.symm hlf]) (by simp [hn, Ne.symm hc])

theorem detectLoop_three_or_four (line : List Char) : ∀ w, detectLoop line w = 3 ∨ detectLoop line w = 4
  | [] => .inl rfl
  | c :: cs => by
      unfold detectLoop
      split_ifs
      · exact .inl rfl
      · exact detectLoop_three_or_four line cs
      · exact .inr rfl
      · exact detectLoop_three_or_four cs cs

theorem detectVersion_eq_four (buf : List Char) : detectVersion buf = 4 ↔ HasV4Line buf :=
  detectLoop_eq_four buf [] (List.not_mem_nil _) (List.not_mem_nil _)

theorem detectVersion_eq_three (buf : List Char) : detectVersion buf = 3 ↔ ¬ HasV4Line buf := by
  rw [← detectVersion_eq_four]
  rcases detectLoop_three_or_four buf buf with h | h <;> simp [detectVersion, h]

/-- The last line is never tested when no line feed ends it, and the command
of a `bind` line is looked for past the line's end. -/
theorem detectVersion_not_line_local :
    v4Line "bindcode 10 exec foo".toList = true ∧ detectVersion "bindcode 10 exec foo".toList = 3 ∧
      v4Line "bind".toList = false ∧ v4Line "x y layout".toList = false ∧ v4Line [] = false ∧
      detectVersion "bind\nx y layout\n".toList = 4 := by
  decide

theorem strncasecmp_append : ∀ {a b : List Char} (more : List Char) {n : Nat}, (∀ i < n, cAt b i ≠ '\x00') →
    strncasecmp a b n = true → strncasecmp (a ++ more) b n = true
  | _, _, _, 0, _, _ => rfl
  | a, b, more, n + 1, hb, h => by
      simp only [strncasecmp, Bool.and_eq_true, decide_eq_true_eq, Bool.or_eq_true] at h ⊢
      have ha : cAt a 0 ≠ '\x00' := fun h0 =>
        hb 0 (Nat.succ_pos n) (toLower_eq_nul (h.1.symm.trans (by rw [h0]; decide)))
      obtain ⟨c, cs, rfl⟩ : ∃ c cs, a = c :: cs := List.exists_cons_of_ne_nil fun h' => by simp [h'] at ha
      have ih := strncasecmp_append more (fun i hi => by cases b <;> simpa using hb (i + 1) (by omega))
        (h.2.resolve_left ha)
      exact ⟨h.1, .inr ih⟩

theorem cAt_mem {s : List Char} {i : Nat} (hi : i < s.length) : cAt s i ∈ s := by
  simp only [cAt, List.getD_eq_getElem?_getD, List.getElem?_eq_getElem hi, Option.getD_some]
  exact List.getElem_mem _

theorem hasPrefix_append {s : List Char} {key : String} (hk : '\x00' ∉ key.toList) (more : List Char)
    (h : hasPrefix s key = true) : hasPrefix (s ++ more) key = true :=
  strncasecmp_append more (fun _ hi h0 => hk (h0 ▸ cAt_mem hi)) h

theorem strchr_append {c : Char} (more : List Char) : ∀ {l r : List Char}, strchr c l = some r →
    strchr c (l ++ more) = some (r ++ more)
  | [], _, h => by simp [strchr] at h
  | d :: ds, r, h => by
      unfold strchr at h
      rw [List.cons_append, strchr]
      split_ifs at h ⊢
      · cases h; rfl
      · exact strchr_append more h

theorem skipBlanks_append {r : List Char} (more : List Char) (h : cAt (skipBlanks r) 0 ≠ '\x00') :
    skipBlanks (r ++ more) = skipBlanks r ++ more := by
  have hne : skipBlanks r ≠ [] := fun he => h (by rw [he]; rfl)
  rw [skipBlanks, List.dropWhile_append, if_neg (by simpa [skipBlanks] using hne)]; rfl

theorem cAt_append_of_ne {r : List Char} (more : List Char) (h : cAt r 0 ≠ '\x00') : cAt (r ++ more) 0 = cAt r 0 := by
  cases r with
  | nil => exact absurd rfl h
  | cons c cs => rfl

theorem bindCommand_append {line b : List Char} (more : List Char) (h : bindCommand line = some b) :
    bindCommand (line ++ more) = some (b ++ more) := by
  simp only [bindCommand, Option.bind_eq_bind, Option.bind_eq_some, Option.guard_eq_some', ne_eq,
    exists_and_left, exists_prop] at h ⊢
  obtain ⟨r₁, h₁, hb₁, u, r₂, h₂, hb₂, u', hb⟩ := h
  refine ⟨r₁ ++ more, strchr_append more h₁, ?_, u, r₂ ++ more, ?_, ?_, u', ?_⟩
  · rwa [skipBlanks_append more hb₁, cAt_append_of_ne more hb₁]
  · rw [skipBlanks_append more hb₁]; exact strchr_append more h₂
  · rwa [skipBlanks_append more hb₂, cAt_append_of_ne more hb₂]
  · rw [skipBlanks_append more hb₂, ← Option.some.inj hb]; rfl

theorem v4Line_append {line : List Char} (more : List Char) (h : v4Line line = true) :
    v4Line (line ++ more) = true := by
  have hst : ∀ k ∈ v4Statements, '\x00' ∉ k.toList := by decide
  have hcm : ∀ k ∈ v4Commands, '\x00' ∉ k.toList := by decide
  simp only [v4Line, Bool.or_eq_true, List.any_eq_true, Bool.and_eq_true] at h ⊢
  rcases h with ⟨k, hk, hp⟩ | ⟨hbind, hcmd⟩
  · exact .inl ⟨k, hk, hasPrefix_append (hst k hk) more hp⟩
  · refine .inr ⟨hasPrefix_append (by decide) more hbind, ?_⟩
    cases hb : bindCommand line with
    | none => simp [hb] at hcmd
    | some b =>
        simp only [hb, List.any_eq_true] at hcmd
        simp only [bindCommand_append more hb, List.any_eq_true]
        obtain ⟨k, hk, hp⟩ := hcmd
        exact ⟨k, hk, hasPrefix_append (hcm k hk) more hp⟩

/-- A file `detect_version` takes for version 4 stays version 4 when any text
is added after it, or complete lines without NUL before it. -/
theorem detectVersion_four_extends {buf : List Char} (h : detectVersion buf = 4) (pre more : List Char)
    (hpre : '\x00' ∉ pre) (hlines : pre = [] ∨ ∃ p, pre = p ++ ['\n']) : detectVersion (pre ++ buf ++ more) = 4 := by
  rw [detectVersion_eq_four] at h ⊢
  obtain ⟨p, line, post, rfl, hnul, hlf, hp, hv⟩ := h
  refine ⟨pre ++ p, line, post ++ more, by simp, by simp_all, hlf, ?_, by simpa using v4Line_append more hv⟩
  rcases hp with rfl | ⟨q, rfl⟩
  · simpa using hlines
  · exact .inr ⟨pre ++ q, by simp⟩

theorem detectVersion_four_extends_bindcode :
    detectVersion "bindcode 10 exec foo\n".toList = 4 ∧ '\x00' ∉ "# i3 config\n".toList ∧
      ("# i3 config\n".toList = [] ∨ ∃ p, "# i3 config\n".toList = p ++ ['\n']) ∧
      detectVersion ("# i3 config\n".toList ++ "bindcode 10 exec foo\n".toList ++ "bar".toList) = 4 :=
  have h : detectVersion "bindcode 10 exec foo\n".toList = 4 := by decide
  have hpre : '\x00' ∉ "# i3 config\n".toList := by decide
  have hlines : "# i3 config\n".toList = [] ∨ ∃ p, "# i3 config\n".toList = p ++ ['\n'] :=
    .inr ⟨"# i3 config".toList, rfl⟩
  ⟨h, hpre, hlines, detectVersion_four_extends h _ _ hpre hlines⟩

end I3Config.Version

import Candyland.NftIngester.Logs

/-!
# Log attribution

The log that the runtime writes for a transaction is a text for a forest of calls, with
the texts that the programs print in between.  `parse_logs` finds the calls of the
transaction itself again as long as no printed line is taken for one, or for one of a
program whose key is not a key.
-/

namespace Candyland.NftIngester

/-! ### The lines of the runtime -/

/-- `Program <key> invoke [n]`. -/
def invokeLine (program : Key) (depth : ℕ) : Line :=
  programText ++ Base58.encode program.toList ++ invokeText ++
    Nat.toDigits 10 depth ++ [']']

/-- `Program <key> success`. -/
def successLine (program : Key) : Line :=
  programText ++ Base58.encode program.toList ++ [' ', 's', 'u', 'c', 'c', 'e', 's', 's']

/-- A line that is written while a program runs: one that the program prints, or a note of the
runtime, such as the consumed units, which has no bracket. -/
inductive Printed where
  | log (text : Line)
  | data (text : Line)
  | note (text : Line) (h : '[' ∉ text)

/-- `Program log: ..`, `Program data: ..`. -/
def Printed.line : Printed → Line
  | log text => programText ++ ['l', 'o', 'g', ':', ' '] ++ text
  | data text => programText ++ ['d', 'a', 't', 'a', ':', ' '] ++ text
  | note text _ => text

/-- What happens while a program runs, in order. -/
inductive Body where
  | done
  | print (printed : Printed) (rest : Body)
  | invoke (program : Key) (body rest : Body)

/-- The lines of what happens at a depth. -/
def Body.lines (depth : ℕ) : Body → List Line
  | done => []
  | print printed rest => printed.line :: rest.lines depth
  | invoke program body rest =>
    invokeLine program depth :: (body.lines (depth + 1) ++ successLine program :: rest.lines depth)

/-- The lines that are printed, at any depth. -/
def Body.printed : Body → List Line
  | done => []
  | print printed rest => printed.line :: rest.printed
  | invoke _ body rest => body.printed ++ rest.printed

/-- An instruction of the transaction. -/
structure TopLevel where
  program : Key
  body : Body

namespace TopLevel

/-- The lines between the invoke line of the instruction and its end. -/
def ownLines (top : TopLevel) : List Line := top.body.lines 2 ++ [successLine top.program]

/-- The lines of a transaction.  The programs that are `precompile` are not invoked, the runtime
itself checks their instructions. -/
def lines (precompile : Key → Bool) : List TopLevel → List Line
  | [] => []
  | top :: tops =>
    if precompile top.program then lines precompile tops
    else invokeLine top.program 1 :: (top.ownLines ++ lines precompile tops)

/-- The printed lines of a transaction. -/
def printed (precompile : Key → Bool) : List TopLevel → List Line
  | [] => []
  | top :: tops =>
    if precompile top.program then printed precompile tops
    else top.body.printed ++ printed precompile tops

/-- The entries of a transaction, one for each invoked program. -/
def entries (precompile : Key → Bool) : List TopLevel → List ProgramLog
  | [] => []
  | top :: tops =>
    if precompile top.program then entries precompile tops
    else (top.program, top.ownLines, 1) :: entries precompile tops

end TopLevel

/-! ### What the pattern finds -/

section Captures

theorem not_mem_encode {c : Char} (h : c ∉ Base58.alphabet) (program : Key) :
    c ∉ Base58.encode program.toList := by
  intro hc
  exact h (Base58.mem_encode c hc)

theorem not_mem_toDigits {c : Char} (h : c.isDigit = false) (n : ℕ) : c ∉ Nat.toDigits 10 n := by
  intro hc
  rw [Nat.isDigit_of_mem_toDigits (by norm_num) (by norm_num) hc] at h
  exact absurd h (by simp)

/-- A text splits in one way at its only bracket. -/
theorem after_bracket {before after before' after' : Line} (hbefore : '[' ∉ before)
    (hafter : '[' ∉ after) (h : before ++ '[' :: after = before' ++ '[' :: after') :
    after = after' := by
  rcases List.append_eq_append_iff.1 h with ⟨mid, -, hmid⟩ | ⟨mid, hmid, htail⟩
  · cases mid with
    | nil => exact (List.cons.inj hmid).2
    | cons c mid =>
      have hmem : '[' ∈ after := by
        rw [(List.cons.inj hmid).2]
        simp
      exact absurd hmem hafter
  · cases mid with
    | nil => exact (List.cons.inj htail).2.symm
    | cons c mid =>
      have hmem : '[' ∈ before := by
        rw [hmid, ← (List.cons.inj htail).1]
        simp
      exact absurd hmem hbefore

variable [CharClasses]

theorem word_of_mem_alphabet {c : Char} (h : c ∈ Base58.alphabet) : CharClasses.word c = true := by
  have hascii : Base58.alphabet.all (fun c => decide (c.toNat < 128) && c.isAlphanum) = true := by
    decide
  have hc := List.all_eq_true.1 hascii c h
  rw [Bool.and_eq_true, decide_eq_true_eq] at hc
  rw [CharClasses.word_ascii c hc.1, hc.2, Bool.true_or]

theorem word_blank : CharClasses.word ' ' = false := by
  rw [CharClasses.word_ascii ' ' (by decide)]
  decide

theorem capturesHere_eq_some {text program : Line} {level : Char}
    (h : capturesHere text = some (program, level)) :
    ∃ post, text = programText ++ (program ++ (invokeText ++ level :: ']' :: post)) := by
  rw [capturesHere] at h
  simp only [Option.bind_eq_bind, Option.bind_eq_some_iff, List.isPrefixOf?_eq_some_iff_append_eq]
    at h
  obtain ⟨rest, rfl, behind, hbehind, h⟩ := h
  split at h
  · rename_i level' post
    split_ifs at h
    obtain ⟨rfl, rfl⟩ := Prod.mk.inj (Option.some.inj h)
    refine ⟨post, ?_⟩
    rw [hbehind, List.takeWhile_append_dropWhile]
  · exact absurd h (by simp)

/-- A match stands in the text. -/
theorem captures_eq_some {log program : Line} {level : Char}
    (h : captures log = some (program, level)) :
    ∃ pre post, log = pre ++ (programText ++ (program ++ (invokeText ++ level :: ']' :: post))) := by
  induction log with
  | nil =>
    obtain ⟨post, htext⟩ := capturesHere_eq_some h
    exact ⟨[], post, htext⟩
  | cons c log ih =>
    rw [captures, Option.or_eq_some_iff] at h
    rcases h with h | ⟨-, h⟩
    · obtain ⟨post, htext⟩ := capturesHere_eq_some h
      exact ⟨[], post, htext⟩
    · obtain ⟨pre, post, rfl⟩ := ih h
      exact ⟨c :: pre, post, rfl⟩

/-- Without a bracket there is no match. -/
theorem captures_of_not_mem {log : Line} (h : '[' ∉ log) : captures log = none := by
  rcases hcap : captures log with _ | ⟨program, level⟩
  · rfl
  · obtain ⟨pre, post, rfl⟩ := captures_eq_some hcap
    simp [invokeText] at h

/-- A match in a text with one bracket. -/
theorem captures_of_one_bracket {before after program : Line} {level : Char}
    (hbefore : '[' ∉ before) (hafter : '[' ∉ after)
    (h : captures (before ++ '[' :: after) = some (program, level)) :
    ∃ post, after = level :: ']' :: post := by
  obtain ⟨pre, post, htext⟩ := captures_eq_some h
  have hsplit : before ++ '[' :: after =
      (pre ++ (programText ++ (program ++ invokeText.dropLast))) ++ '[' :: level :: ']' :: post := by
    rw [htext]
    simp [invokeText]
  exact ⟨post, after_bracket hbefore hafter hsplit⟩

/-- An invoke line down to depth 9. -/
theorem captures_invokeLine {program : Key} {depth : ℕ} (h : depth < 10) :
    captures (invokeLine program depth) =
      some (Base58.encode program.toList, Nat.digitChar depth) := by
  have hword : ∀ c ∈ Base58.encode program.toList, CharClasses.word c = true := by
    intro c hc
    exact word_of_mem_alphabet (Base58.mem_encode c hc)
  have hdigit : CharClasses.digit (Nat.digitChar depth) = true := by
    have hascii : ∀ depth < 10,
        (Nat.digitChar depth).toNat < 128 ∧ (Nat.digitChar depth).isDigit = true := by decide
    rw [CharClasses.digit_ascii _ (hascii depth h).1]
    exact (hascii depth h).2
  have hline : invokeLine program depth = programText ++ (Base58.encode program.toList ++
      (invokeText ++ [Nat.digitChar depth, ']'])) := by
    rw [invokeLine, Nat.toDigits_of_lt_base h]
    simp
  have hhere : capturesHere (invokeLine program depth) =
      some (Base58.encode program.toList, Nat.digitChar depth) := by
    generalize Base58.encode program.toList = name at hword hline
    have htake : (name ++ (invokeText ++ [Nat.digitChar depth, ']'])).takeWhile
        CharClasses.word = name := by
      rw [List.takeWhile_append_of_pos hword, invokeText, List.cons_append,
        List.takeWhile_cons_of_neg (by simp [word_blank]), List.append_nil]
    have hdrop : (name ++ (invokeText ++ [Nat.digitChar depth, ']'])).dropWhile
        CharClasses.word = invokeText ++ [Nat.digitChar depth, ']'] := by
      rw [List.dropWhile_append_of_pos hword, invokeText, List.cons_append,
        List.dropWhile_cons_of_neg (by simp [word_blank])]
    rw [hline, capturesHere, List.isPrefixOf?_eq_some_iff_append_eq.2 rfl]
    simp only [Option.bind_eq_bind, Option.bind_some]
    rw [htake, hdrop, List.isPrefixOf?_eq_some_iff_append_eq.2 rfl]
    simp only [Option.bind_some]
    rw [if_pos hdigit]
  have hcons : invokeLine program depth = 'P' :: (invokeLine program depth).tail := by
    rw [hline, programText]
    rfl
  rw [hcons] at hhere ⊢
  rw [captures, hhere, Option.some_or]

/-- Deeper the level has two digits, which the pattern does not allow. -/
theorem captures_invokeLine_deep {program : Key} {depth : ℕ} (h : 10 ≤ depth) :
    captures (invokeLine program depth) = none := by
  rcases hcap : captures (invokeLine program depth) with _ | ⟨name, level⟩
  · rfl
  · have hline : invokeLine program depth =
        (programText ++ Base58.encode program.toList ++ invokeText.dropLast) ++
          '[' :: (Nat.toDigits 10 depth ++ [']']) := by
      rw [invokeLine]
      simp [invokeText]
    rw [hline] at hcap
    obtain ⟨post, hpost⟩ := captures_of_one_bracket
      (by simp [programText, invokeText, not_mem_encode (c := '[') (by decide)])
      (by simp [not_mem_toDigits (c := '[') (by decide)]) hcap
    -- the second digit stands where the pattern has the closing bracket
    have hclose : ']' ∈ Nat.toDigits 10 depth := by
      obtain ⟨c, cs, hcs⟩ :=
        List.exists_cons_of_ne_nil (Nat.toDigits_ne_nil (n := depth / 10) (b := 10))
      rw [Nat.toDigits_of_base_le (by norm_num) h, hcs] at hpost ⊢
      have htail := (List.cons.inj hpost).2
      cases cs with
      | nil =>
        rw [← (List.cons.inj htail).1]
        simp
      | cons c' cs =>
        rw [← (List.cons.inj htail).1]
        simp
    exact absurd hclose (not_mem_toDigits (by decide) depth)

theorem captures_successLine (program : Key) : captures (successLine program) = none :=
  captures_of_not_mem (by
    simp [successLine, programText, not_mem_encode (c := '[') (by decide)])

/-! ### What a line does -/

/-- The line is no entry of its own: it is not taken for an invoke line, or its key is no text
in base 58, or it is one of 32 bytes and the level is not 1. -/
def Harmless (log : Line) : Prop :=
  ∀ program level, captures log = some (program, level) →
    ∀ bytes, Base58.decode program = some bytes → bytes.length = 32 ∧ parseU8 level ≠ some 1

/-- The line opens an entry. -/
def Opens (log : Line) : Bool :=
  match cap log with
  | .ok (some (_, 1)) => true
  | _ => false

theorem harmless_of_captures {log : Line} (h : captures log = none) : Harmless log := by
  intro program level hcap
  rw [h] at hcap
  exact absurd hcap (by simp)

theorem cap_of_captures {log : Line} (h : captures log = none) : cap log = .ok none := by
  rw [cap, h]

/-- A harmless line has a program and a level other than 1, or none. -/
theorem harmless_iff {log : Line} :
    Harmless log ↔ (∃ found, cap log = .ok found) ∧ Opens log = false := by
  rcases hcap : captures log with _ | ⟨program, level⟩
  · simp [harmless_of_captures hcap, Opens, cap_of_captures hcap]
  rcases hdecode : Base58.decode program with _ | bytes
  · simp [Harmless, Opens, cap, hcap, hdecode]
  rcases hlength : decide (bytes.length = 32) with _ | _
  · simp [Harmless, Opens, cap, hcap, hdecode, Key.new, of_decide_eq_false hlength]
  · have hlength := of_decide_eq_true hlength
    rcases hlevel : parseU8 level with _ | n
    · simp [Harmless, Opens, cap, hcap, hdecode, Key.new, hlength, hlevel]
    · have hopens : Opens log = decide (n = 1) := by
        simp only [Opens, cap, hcap, hdecode, Key.new, hlength, hlevel, dite_true, Outcome.ok_bind]
        split
        · rename_i hfound
          simp at hfound
          simp [hfound.2]
        · rename_i hfound
          rw [eq_comm, decide_eq_false_iff_not]
          rintro rfl
          exact hfound _ rfl
      simp [Harmless, hopens, cap, hcap, hdecode, Key.new, hlength, hlevel]

/-- Invoke lines are read back. -/
theorem cap_invokeLine (program : Key) (depth : ℕ) :
    cap (invokeLine program depth) = .ok (if depth < 10 then some (program, depth) else none) := by
  split_ifs with h
  · have hlevel : ∀ depth < 10, parseU8 (Nat.digitChar depth) = some depth := by decide
    have hnew : (Key.new program.toList : Outcome Unit Key) = .ok program := by
      simp only [Key.new, Vector.length_toList, dite_true]
      congr 1
    simp [cap, captures_invokeLine h, hnew, hlevel depth h]
  · exact cap_of_captures (captures_invokeLine_deep (Nat.le_of_not_lt h))

theorem opens_invokeLine (program : Key) (depth : ℕ) :
    Opens (invokeLine program depth) = decide (depth = 1) := by
  rw [Opens, cap_invokeLine]
  split_ifs with h
  · split <;> simp_all
  · simp
    omega

theorem harmless_invokeLine {program : Key} {depth : ℕ} (h : depth ≠ 1) :
    Harmless (invokeLine program depth) := by
  refine harmless_iff.2 ⟨⟨_, cap_invokeLine program depth⟩, ?_⟩
  rw [opens_invokeLine]
  simp [h]

theorem harmless_successLine (program : Key) : Harmless (successLine program) :=
  harmless_of_captures (captures_successLine program)

/-! ### What the loop does -/

/-- A harmless line goes to the last entry. -/
theorem parseLog_of_harmless {log : Line} (h : Harmless log) (programLogs : List ProgramLog)
    (key : Key) (lines : List Line) (level : ℕ) :
    parseLog (programLogs ++ [(key, lines, level)]) log =
      .ok (programLogs ++ [(key, lines ++ [log], level)]) := by
  obtain ⟨⟨found, hcap⟩, hopens⟩ := harmless_iff.1 h
  rw [Opens, hcap] at hopens
  rw [parseLog, hcap, Outcome.ok_bind]
  split
  · simp at hopens
  · simp

theorem parseLog_of_opens {key : Key} {log : Line} (h : cap log = .ok (some (key, 1)))
    (programLogs : List ProgramLog) :
    parseLog programLogs log = .ok (programLogs ++ [(key, [], 1)]) := by
  rw [parseLog, h]
  rfl

theorem foldlM_of_harmless {logs : List Line} (h : ∀ log ∈ logs, Harmless log)
    (programLogs : List ProgramLog) (key : Key) (lines : List Line) (level : ℕ) :
    logs.foldlM parseLog (programLogs ++ [(key, lines, level)]) =
      .ok (programLogs ++ [(key, lines ++ logs, level)]) := by
  induction logs generalizing lines with
  | nil => simp [pure]
  | cons log logs ih =>
    rw [List.foldlM_cons, parseLog_of_harmless (h log List.mem_cons_self), Outcome.ok_bind,
      ih fun other hother => h other (List.mem_cons_of_mem log hother)]
    simp

/-- Without an abort every line is read, and each line that opens an entry adds one. -/
theorem foldlM_ok {logs : List Line} {programLogs programLogs' : List ProgramLog}
    (h : logs.foldlM parseLog programLogs = .ok programLogs') :
    (∀ log ∈ logs, ∃ found, cap log = .ok found) ∧
      programLogs'.length = programLogs.length + logs.countP Opens := by
  induction logs generalizing programLogs with
  | nil =>
    obtain rfl := Outcome.ok.inj h
    simp
  | cons log logs ih =>
    rw [List.foldlM_cons] at h
    obtain ⟨programLogs₁, hlog, h⟩ := Outcome.bind_eq_ok.1 h
    obtain ⟨hlogs, hlength⟩ := ih h
    rw [parseLog] at hlog
    obtain ⟨found, hcap, hlog⟩ := Outcome.bind_eq_ok.1 hlog
    constructor
    · intro other hother
      rcases List.mem_cons.1 hother with rfl | hother
      · exact ⟨found, hcap⟩
      · exact hlogs other hother
    · rw [hlength, List.countP_cons, Opens, hcap]
      split at hlog
      · obtain rfl := Outcome.ok.inj hlog
        simp
        omega
      · rename_i hfound
        -- the entry that is replaced is the last one
        split at hlog
        · rename_i hlast
          obtain rfl := Outcome.ok.inj hlog
          have hpos : 0 < programLogs.length := by
            rw [List.length_pos_iff]
            rintro rfl
            simp at hlast
          have hnot : (match (Outcome.ok found : Outcome Unit (Option (Key × ℕ))) with
              | .ok (some (_, 1)) => true
              | _ => false) = false := by
            split
            · rename_i key hkey
              exact absurd (Outcome.ok.inj hkey) (hfound key)
            · rfl
          rw [hnot]
          simp
          omega
        · exact absurd hlog (by simp)

/-! ### The lines of a transaction -/

/-- Below the instructions of the transaction, only a printed line can do harm. -/
theorem Body.harmless {body : Body} (h : ∀ log ∈ body.printed, Harmless log) {depth : ℕ}
    (hdepth : 1 < depth) : ∀ log ∈ body.lines depth, Harmless log := by
  induction body generalizing depth with
  | done => simp [Body.lines]
  | print printed rest ih =>
    simp only [Body.printed, List.mem_cons, forall_eq_or_imp] at h
    simp only [Body.lines, List.mem_cons, forall_eq_or_imp]
    exact ⟨h.1, ih h.2 hdepth⟩
  | invoke program body rest ihbody ihrest =>
    simp only [Body.printed, List.mem_append, or_imp, forall_and] at h
    simp only [Body.lines, List.mem_cons, List.mem_append, or_imp, forall_and, forall_eq]
    exact ⟨harmless_invokeLine hdepth.ne', ihbody h.1 (by omega), harmless_successLine program,
      ihrest h.2 hdepth⟩

theorem Body.countP_lines (body : Body) {depth : ℕ} (hdepth : 1 < depth) :
    (body.lines depth).countP Opens = body.printed.countP Opens := by
  induction body generalizing depth with
  | done => rfl
  | print printed rest ih => simp only [Body.lines, Body.printed, List.countP_cons, ih hdepth]
  | invoke program body rest ihbody ihrest =>
    have hsuccess := (harmless_iff.1 (harmless_successLine program)).2
    simp [Body.lines, Body.printed, opens_invokeLine, hdepth.ne', hsuccess,
      ihbody (Nat.lt_succ_of_lt hdepth), ihrest hdepth]

omit [CharClasses] in
theorem Body.printed_subset (body : Body) (depth : ℕ) : body.printed ⊆ body.lines depth := by
  induction body generalizing depth with
  | done => simp [Body.printed]
  | print printed rest ih =>
    simp only [Body.lines, Body.printed]
    exact List.cons_subset_cons _ (ih depth)
  | invoke program body rest ihbody ihrest =>
    intro log hlog
    rcases List.mem_append.1 hlog with hlog | hlog
    · simp [Body.lines, ihbody (depth + 1) hlog]
    · simp [Body.lines, ihrest depth hlog]

namespace TopLevel

variable (precompile : Key → Bool)

/-- The loop over the lines of a transaction. -/
theorem foldlM_lines {tops : List TopLevel} (h : ∀ log ∈ printed precompile tops, Harmless log)
    (programLogs : List ProgramLog) :
    (lines precompile tops).foldlM parseLog programLogs =
      .ok (programLogs ++ entries precompile tops) := by
  induction tops generalizing programLogs with
  | nil => simp [lines, entries, pure]
  | cons top tops ih =>
    rw [printed] at h
    rw [lines, entries]
    split_ifs at h ⊢ with hprecompile
    · exact ih h programLogs
    · have hbody : ∀ log ∈ top.ownLines, Harmless log := by
        intro log hlog
        rcases List.mem_append.1 hlog with hlog | hlog
        · exact Body.harmless (fun log hlog => h log (List.mem_append_left _ hlog))
            (by norm_num) log hlog
        · rw [List.mem_singleton.1 hlog]
          exact harmless_successLine top.program
      have hopens : cap (invokeLine top.program 1) = .ok (some (top.program, 1)) :=
        cap_invokeLine top.program 1
      rw [List.foldlM_cons, parseLog_of_opens hopens, Outcome.ok_bind, List.foldlM_append,
        foldlM_of_harmless hbody, Outcome.ok_bind,
        ih fun log hlog => h log (List.mem_append_right _ hlog)]
      simp

/-- Each entry is opened by its invoke line, any other by a printed one. -/
theorem countP_lines (tops : List TopLevel) :
    (lines precompile tops).countP Opens =
      (entries precompile tops).length + (printed precompile tops).countP Opens := by
  induction tops with
  | nil => rfl
  | cons top tops ih =>
    rw [lines, entries, printed]
    split_ifs
    · exact ih
    · have hsuccess := (harmless_iff.1 (harmless_successLine top.program)).2
      have hbody : (top.body.lines 2).countP Opens = top.body.printed.countP Opens :=
        top.body.countP_lines (by norm_num)
      simp [ownLines, opens_invokeLine, hsuccess, hbody, ih]
      omega

omit [CharClasses] in
theorem printed_subset (tops : List TopLevel) :
    printed precompile tops ⊆ lines precompile tops := by
  induction tops with
  | nil => simp [printed]
  | cons top tops ih =>
    rw [lines, printed]
    split_ifs
    · exact ih
    · intro log hlog
      rcases List.mem_append.1 hlog with hlog | hlog
      · simp [ownLines, top.body.printed_subset 2 hlog]
      · simp [ih hlog]

/-- The entries are found if and only if no printed line does harm. -/
theorem parseLogs_lines (tops : List TopLevel) :
    parseLogs (some (lines precompile tops)) = .ok (entries precompile tops) ↔
      ∀ log ∈ printed precompile tops, Harmless log := by
  constructor
  · intro h log hlog
    obtain ⟨hread, hlength⟩ := foldlM_ok h
    rw [countP_lines] at hlength
    have hcount : (printed precompile tops).countP Opens = 0 := by
      simp only [List.length_nil] at hlength
      omega
    refine harmless_iff.2 ⟨hread log (printed_subset precompile tops hlog), ?_⟩
    simpa using List.countP_eq_zero.1 hcount log hlog
  · intro h
    exact (foldlM_lines precompile h []).trans (by rw [List.nil_append])

/-! ### The pairs -/

variable {precompile}

omit [CharClasses] in
theorem entries_eq_nil_iff {tops : List TopLevel} :
    entries precompile tops = [] ↔ (tops.all fun top => precompile top.program) = true := by
  induction tops with
  | nil => simp [entries]
  | cons top tops ih =>
    rw [entries, List.all_cons]
    split_ifs with h <;> simp [h, ih]

omit [CharClasses] in
theorem precompile_of_mem_entries {tops : List TopLevel} :
    ∀ entry ∈ entries precompile tops, precompile entry.1 = false := by
  induction tops with
  | nil => simp [entries]
  | cons top tops ih =>
    rw [entries]
    split_ifs with h
    · exact ih
    · simp only [List.mem_cons, forall_eq_or_imp]
      exact ⟨by simpa using h, ih⟩

end TopLevel

/-- The calls with the lines of the instructions themselves.  They end at the first instruction
that is not invoked: the assertion fails there, unless no other one is. -/
def ownHandled (precompile responds : Key → Bool) (messageId : ℤ) (keys : List Key) (slot : UInt64) :
    List (IxPair × Option (List IxPair)) → List TopLevel → Handled
  | (outerIx, innerIx) :: instructions, top :: tops =>
    if precompile top.program then ⟨[], tops.all fun top => precompile top.program⟩
    else (ownHandled precompile responds messageId keys slot instructions tops).cons responds
      top.program (bundle messageId keys slot outerIx.2 innerIx top.ownLines)
  | _, _ => ⟨[], true⟩

omit [CharClasses] in
theorem handleInstructions_entries {precompile responds : Key → Bool} {messageId : ℤ}
    {keys : List Key} {slot : UInt64} {instructions : List (IxPair × Option (List IxPair))}
    {tops : List TopLevel}
    (h : List.Forall₂ (fun ordered top => ordered.1.1 = top.program) instructions tops) :
    handleInstructions responds messageId keys slot instructions
        (TopLevel.entries precompile tops) =
      ownHandled precompile responds messageId keys slot instructions tops := by
  induction h with
  | nil => rfl
  | @cons ordered top instructions tops hprogram hrest ih =>
    rw [TopLevel.entries, ownHandled]
    split_ifs with hprecompile
    · rcases hentries : TopLevel.entries precompile tops with _ | ⟨entry, others⟩
      · rw [TopLevel.entries_eq_nil_iff.1 hentries, handleInstructions]
        simp
      · -- the program of the next entry is invoked, this one is not
        have hentry : precompile entry.1 = false :=
          TopLevel.precompile_of_mem_entries entry (by rw [hentries]; simp)
        have hne : ordered.1.1 ≠ entry.1 := by
          intro heq
          rw [← hprogram, heq, hentry] at hprecompile
          exact absurd hprecompile (by simp)
        have hall : (tops.all fun top => precompile top.program) = false := by
          rw [← Bool.not_eq_true, ← TopLevel.entries_eq_nil_iff, hentries]
          simp
        rw [handleInstructions, if_neg hne, hall]
    · rw [handleInstructions, if_pos hprogram, ih, hprogram]

/-! ### A transaction -/

/-- The message of the plugin for a transaction.  The indices of programs are in range. -/
structure Describes (precompile : Key → Bool) (keys : List Key) (transaction : TransactionInfo)
    (tops : List TopLevel) : Prop where
  accountKeys : transaction.accountKeys = some keys
  logMessages : transaction.logMessages = some (TopLevel.lines precompile tops)
  outer : ∃ outer, transaction.outerInstructions = some outer ∧
    List.Forall₂ (fun ix top => keys[ix.programIdIndex.toNat]? = some top.program) outer tops
  inner : ∀ innerIxs ∈ transaction.innerInstructions.getD [],
    ∀ ix ∈ innerIxs.instructions, ix.programIdIndex.toNat < keys.length

omit [CharClasses] in
theorem mapM_ixPair {keys : List Key} {instructions : List CompiledInstruction}
    (h : ∀ ix ∈ instructions, ix.programIdIndex.toNat < keys.length) :
    ∃ pairs, instructions.mapM (ixPair keys) = .ok pairs := by
  induction instructions with
  | nil => exact ⟨[], rfl⟩
  | cons ix instructions ih =>
    obtain ⟨pairs, hpairs⟩ := ih fun other hother => h other (List.mem_cons_of_mem ix hother)
    obtain ⟨key, hkey⟩ : ∃ key, keys[ix.programIdIndex.toNat]? = some key :=
      ⟨_, List.getElem?_eq_getElem (h ix List.mem_cons_self)⟩
    refine ⟨(key, ix) :: pairs, ?_⟩
    rw [List.mapM_cons, hpairs, ixPair, getKey, hkey]
    rfl

omit [CharClasses] in
theorem orderFrom_ok {keys : List Key} {innerIxList : Option (List InnerInstructions)}
    (hinner : ∀ innerIxs ∈ innerIxList.getD [],
      ∀ ix ∈ innerIxs.instructions, ix.programIdIndex.toNat < keys.length)
    {outer : List CompiledInstruction} {tops : List TopLevel}
    (h : List.Forall₂ (fun ix top => keys[ix.programIdIndex.toNat]? = some top.program) outer tops)
    (i : ℕ) :
    ∃ instructions, orderFrom keys innerIxList i outer = .ok instructions ∧
      List.Forall₂ (fun ordered top => ordered.1.1 = top.program) instructions tops := by
  induction h generalizing i with
  | nil => exact ⟨[], rfl, .nil⟩
  | @cons ix top outer tops hkey hrest ih =>
    obtain ⟨instructions, hinstructions, hprograms⟩ := ih (i + 1)
    rw [orderFrom, hinstructions, ixPair, getKey, hkey]
    rcases hget : getInnerIxs innerIxList i with _ | innerIxs
    · exact ⟨((top.program, ix), none) :: instructions, rfl, .cons rfl hprograms⟩
    · obtain ⟨innerIxList, hlist, hfind⟩ := Option.bind_eq_some_iff.1 hget
      have hmem : innerIxs ∈ innerIxList := List.mem_of_find?_eq_some hfind
      obtain ⟨innerList, hmap⟩ := mapM_ixPair (hinner innerIxs (by rw [hlist]; exact hmem))
      refine ⟨((top.program, ix), some innerList) :: instructions, ?_, .cons rfl hprograms⟩
      simp only [hmap]
      rfl

/-- The lines are attributed to the instructions that they were logged for, in `parse_logs` and
then in `handle_transaction`, exactly if no printed line does harm. -/
theorem parse_logs_iff {precompile : Key → Bool} (responds : Key → Bool) (messageId : ℤ)
    {keys : List Key} {transaction : TransactionInfo} {tops : List TopLevel}
    (h : Describes precompile keys transaction tops) :
    (parseLogs transaction.logMessages = .ok (TopLevel.entries precompile tops) ∧
        ∃ instructions, orderInstructions transaction = .ok instructions ∧
          handleTransaction responds messageId transaction = ownHandled precompile responds
            messageId keys transaction.slot instructions tops) ↔
      ∀ log ∈ TopLevel.printed precompile tops, Harmless log := by
  rw [h.logMessages, TopLevel.parseLogs_lines]
  refine and_iff_left_of_imp fun hharmless => ?_
  obtain ⟨outer, houter, hprograms⟩ := h.outer
  obtain ⟨instructions, horder, hpairs⟩ := orderFrom_ok h.inner hprograms 0
  have hordered : orderInstructions transaction = .ok instructions := by
    rw [orderInstructions, houter, h.accountKeys]
    exact horder
  have hparsed : parseLogs transaction.logMessages = .ok (TopLevel.entries precompile tops) := by
    rw [h.logMessages]
    exact (TopLevel.parseLogs_lines precompile tops).2 hharmless
  refine ⟨instructions, hordered, ?_⟩
  rw [handleTransaction, h.accountKeys, hordered, hparsed]
  exact handleInstructions_entries hpairs

end Captures

/-! ### A program that prints -/

/-- The classes among the characters of ASCII. -/
instance : CharClasses where
  word c := c.isAlphanum || c == '_'
  digit c := c.isDigit
  word_ascii _ _ := rfl
  digit_ascii _ _ := rfl

/-- A key with one byte. -/
def oneByte (byte : UInt8) : Key := Vector.ofFn fun i => if i.val = 31 then byte else 0

/-- A transaction of two instructions, of which the first logs a text. -/
def printing (text : Line) : List TopLevel :=
  [⟨oneByte 1, .print (.log text) .done⟩, ⟨oneByte 2, .done⟩]

/-- Its message. -/
def printingInfo (text : Line) : TransactionInfo where
  accountKeys := some [oneByte 1, oneByte 2]
  logMessages := some (TopLevel.lines (fun _ => false) (printing text))
  innerInstructions := none
  outerInstructions := some [⟨0, [], []⟩, ⟨1, [], []⟩]
  slot := 0

theorem describes_printing (text : Line) :
    Describes (fun _ => false) [oneByte 1, oneByte 2] (printingInfo text) (printing text) where
  accountKeys := rfl
  logMessages := rfl
  outer := ⟨_, rfl, .cons rfl (.cons rfl .nil)⟩
  inner _ h := absurd h List.not_mem_nil

/-- A greeting does no harm. -/
theorem parse_logs_hi : parseLogs (printingInfo ['h', 'i']).logMessages =
    .ok (TopLevel.entries (fun _ => false) (printing ['h', 'i'])) := by
  refine ((parse_logs_iff (fun _ => true) 0 (describes_printing ['h', 'i'])).2 ?_).1
  intro log hlog
  have heq : log = (Printed.log ['h', 'i']).line := by
    simpa [TopLevel.printed, printing, Body.printed] using hlog
  rw [heq]
  exact harmless_of_captures (by decide)

/-- A logged text that looks like an invoke line opens an entry of its own, so that the assertion
fails; with an empty key it aborts `parse_logs`. -/
theorem parse_logs_spoofed :
    let text := invokeLine (oneByte 3) 1
    Describes (fun _ => false) [oneByte 1, oneByte 2] (printingInfo text) (printing text) ∧
      parseLogs (printingInfo text).logMessages ≠
        .ok (TopLevel.entries (fun _ => false) (printing text)) ∧
      (handleTransaction (fun _ => true) 0 (printingInfo text)).finished = false ∧
      parseLogs (printingInfo (programText ++ invokeText ++ ['1', ']'])).logMessages = .panic := by
  intro text
  refine ⟨describes_printing text, ?_, ?_, ?_⟩
  · decide
  · decide
  · decide

end Candyland.NftIngester

import Candyland.NftIngester.LogAttribution

/-!
# The call tree in the text of a log

The indexer reads the lines of a transaction as a text with brackets: an invoke line opens a call
and a success line closes it.  Both are searched anywhere in a line, so that a line that a program
prints can be taken for one of them.  The tree is that of the calls if and only if there is no such
line, and no call is deeper than one digit can say.
-/

namespace Candyland.Sdk.Indexer

open NftIngester (Body CharClasses Key Line TopLevel captures capturesHere captures_invokeLine
  invokeLine invokeText not_mem_encode not_mem_toDigits oneByte printing programText successLine
  word_blank word_of_mem_alphabet)

/-! ### The parser -/

/-- `startRegEx`: the program and the level of the leftmost match of
`Program (\w*) invoke \[(\d)\]`. -/
def startRegEx (logLine : Line) : Option (Line × Char) := captures logLine

/-- `" success"`. -/
def successText : Line := [' ', 's', 'u', 'c', 'c', 'e', 's', 's']

/-- A match of `Program (\w*) success` at the beginning of a text.  No blank is in `\w`, so that
`\w*` has one place to end. -/
def endRegExHere (text : Line) : Option Line := do
  let text ← programText.isPrefixOf? text
  let _ ← successText.isPrefixOf? (text.dropWhile CharClasses.word)
  some (text.takeWhile CharClasses.word)

/-- `endRegEx`: the program of the leftmost match. -/
def endRegEx : Line → Option Line
  | [] => endRegExHere []
  | c :: logLine => (endRegExHere (c :: logLine)).or (endRegEx logLine)

/-- `new PublicKey(text)`, which throws unless the text is one of 32 bytes in base 58. -/
def publicKey (text : Line) : Option Key := do
  let bytes ← Base58.decode text
  if h : bytes.length = 32 then some ⟨bytes.toArray, h⟩ else none

/-- `Number(level) - 1`. -/
def depthOf (level : Char) : ℤ := (level.toNat - 48 : ℕ) - 1

/-- `(string | ParsedLog)[]`, with the lines as they are. -/
inductive TextLogs where
  | nil
  | line (logLine : Line) (rest : TextLogs)
  | parsedLog (programId : Key) (depth : ℤ) (logs rest : TextLogs)
deriving DecidableEq

/-- `ParsedLog`. -/
structure TextLog where
  programId : Key
  depth : ℤ
  logs : TextLogs
deriving DecidableEq

/-- The loop of `parseInstructionLog(programId, depth, logs)`: what is pushed from the line on that
comes next, and the lines behind the end of the instruction.  Without a line there is an
exception. -/
def parseInstructionLog (programId : Key) : ℕ → List Line → Option (TextLogs × List Line)
  | 0, _ => none
  | _, [] => none
  | fuel + 1, logLine :: logs =>
    match endRegEx logLine with
    | some finished =>
      -- `Unexpected program id finished`
      if finished ≠ Base58.encode programId.toList then none else some (.nil, logs)
    | none =>
      match startRegEx logLine with
      | some (program, level) => do
        let child ← publicKey program
        let (inner, logs) ← parseInstructionLog child fuel logs
        let (rest, logs) ← parseInstructionLog programId fuel logs
        some (.parsedLog child (depthOf level) inner rest, logs)
      | none => do
        let (rest, logs) ← parseInstructionLog programId fuel logs
        some (.line logLine rest, logs)

/-- `parseLogs(logs)`.  A line without a match is an exception. -/
def parseLogs : ℕ → List Line → Option (List TextLog)
  | _, [] => some []
  | 0, _ :: _ => none
  | fuel + 1, logLine :: logs => do
    let (program, level) ← startRegEx logLine
    let programId ← publicKey program
    let (inner, logs) ← parseInstructionLog programId fuel logs
    let rest ← parseLogs fuel logs
    some (⟨programId, depthOf level, inner⟩ :: rest)

/-! ### The calls -/

/-- The entries of what happens at a level. -/
def textLogs (level : ℕ) : Body → TextLogs
  | .done => .nil
  | .print printed rest => .line printed.line (textLogs level rest)
  | .invoke program body rest =>
    .parsedLog program (level - 1 : ℤ) (textLogs (level + 1) body) (textLogs level rest)

/-- The trees of the instructions that are invoked. -/
def callTrees (precompile : Key → Bool) : List TopLevel → List TextLog
  | [] => []
  | top :: tops =>
    if precompile top.program then callTrees precompile tops
    else ⟨top.program, 0, textLogs 2 top.body⟩ :: callTrees precompile tops

/-- No call is at a level above 9. -/
def Shallow (level : ℕ) : Body → Prop
  | .done => True
  | .print _ rest => Shallow level rest
  | .invoke _ body rest => level ≤ 9 ∧ Shallow (level + 1) body ∧ Shallow level rest

/-- The line is taken for neither an invoke line nor a success line. -/
def Plain (logLine : Line) : Prop := endRegEx logLine = none ∧ startRegEx logLine = none

instance (logLine : Line) : Decidable (Plain logLine) :=
  inferInstanceAs (Decidable (_ ∧ _))

/-! ### What the patterns find -/

section Patterns

/-- A text splits at a blank, at its first one or behind it. -/
theorem split_blank {before after before' after' : Line} (h : ' ' ∉ before)
    (heq : before ++ ' ' :: after = before' ++ ' ' :: after') :
    (before' = before ∧ after' = after) ∨
      ∃ mid, before' = before ++ ' ' :: mid ∧ after = mid ++ ' ' :: after' := by
  rcases List.append_eq_append_iff.1 heq with ⟨mid, rfl, hmid⟩ | ⟨mid, rfl, hmid⟩
  · cases mid with
    | nil => exact .inl ⟨List.append_nil _, (List.cons.inj hmid).2.symm⟩
    | cons c mid =>
      obtain ⟨rfl, rfl⟩ := List.cons.inj hmid
      exact .inr ⟨mid, rfl, rfl⟩
  · cases mid with
    | nil => exact .inl ⟨(List.append_nil _).symm, (List.cons.inj hmid).2⟩
    | cons c mid =>
      rw [← (List.cons.inj hmid).1] at h
      simp at h

/-- Two texts have their first blank at the same place. -/
theorem first_blank {before after before' after' : Line} (h : ' ' ∉ before) (h' : ' ' ∉ before')
    (heq : before ++ ' ' :: after = before' ++ ' ' :: after') : before = before' ∧ after = after' := by
  rcases split_blank h heq with ⟨rfl, rfl⟩ | ⟨mid, rfl, -⟩
  · exact ⟨rfl, rfl⟩
  · simp at h'

theorem endRegExHere_eq_some {text program : Line} (h : endRegExHere text = some program) :
    ' ' ∉ program ∧ ∃ post, text = programText ++ (program ++ (successText ++ post)) := by
  simp only [endRegExHere, Option.bind_eq_bind, Option.bind_eq_some_iff,
    List.isPrefixOf?_eq_some_iff_append_eq, Option.some.injEq] at h
  obtain ⟨rest, rfl, post, hpost, rfl⟩ := h
  refine ⟨fun hblank => ?_, post, by rw [hpost, List.takeWhile_append_dropWhile]⟩
  have hword := List.mem_takeWhile_imp hblank
  rw [word_blank] at hword
  cases hword

/-- A match stands in the line. -/
theorem endRegEx_eq_some {logLine program : Line} (h : endRegEx logLine = some program) :
    ' ' ∉ program ∧
      ∃ pre post, logLine = pre ++ (programText ++ (program ++ (successText ++ post))) := by
  induction logLine with
  | nil =>
    obtain ⟨hblank, post, htext⟩ := endRegExHere_eq_some h
    exact ⟨hblank, [], post, htext⟩
  | cons c logLine ih =>
    rw [endRegEx, Option.or_eq_some_iff] at h
    rcases h with h | ⟨-, h⟩
    · obtain ⟨hblank, post, htext⟩ := endRegExHere_eq_some h
      exact ⟨hblank, [], post, htext⟩
    · obtain ⟨hblank, pre, post, rfl⟩ := ih h
      exact ⟨hblank, c :: pre, post, rfl⟩

/-- An invoke line ends nothing: its third word is not `success`. -/
theorem endRegEx_invokeLine (program : Key) (depth : ℕ) :
    endRegEx (invokeLine program depth) = none := by
  rcases hmatch : endRegEx (invokeLine program depth) with _ | name
  · rfl
  obtain ⟨hname, pre, post, hline⟩ := endRegEx_eq_some hmatch
  have hkey : ' ' ∉ Base58.encode program.toList := not_mem_encode (by decide) program
  have hlevel : ' ' ∉ '[' :: (Nat.toDigits 10 depth ++ [']']) := by
    simp [not_mem_toDigits (c := ' ') (by decide)]
  have hwords : ['P', 'r', 'o', 'g', 'r', 'a', 'm'] ++ ' ' :: (Base58.encode program.toList ++
      ' ' :: (['i', 'n', 'v', 'o', 'k', 'e'] ++ ' ' :: '[' :: (Nat.toDigits 10 depth ++ [']']))) =
      (pre ++ ['P', 'r', 'o', 'g', 'r', 'a', 'm']) ++ ' ' :: (name ++ ' ' ::
        (['s', 'u', 'c', 'c', 'e', 's', 's'] ++ post)) := by
    simpa [invokeLine, programText, invokeText, successText] using hline
  rcases split_blank (by decide) hwords with ⟨-, hsecond⟩ | ⟨mid, -, hrest⟩
  · -- behind the second word comes `invoke`
    have hthird := (first_blank hname hkey hsecond).2
    exact absurd (congrArg List.head? hthird) (by simp)
  · rcases split_blank hkey hrest with ⟨-, hthird⟩ | ⟨mid, -, hrest⟩
    · -- behind the third word comes the level
      have hfourth := (first_blank hname (by decide) hthird).2
      exact absurd (congrArg List.head? hfourth) (by simp)
    · -- and behind the level no word
      rcases split_blank (by decide) hrest with ⟨-, hlast⟩ | ⟨mid, -, hlast⟩
      · exact absurd (hlast ▸ List.mem_append_right _ List.mem_cons_self) hlevel
      · exact absurd (hlast ▸ List.mem_append_right _ List.mem_cons_self) hlevel

/-- A success line ends its program. -/
theorem endRegEx_successLine (program : Key) :
    endRegEx (successLine program) = some (Base58.encode program.toList) := by
  have hword : ∀ c ∈ Base58.encode program.toList, CharClasses.word c = true := by
    intro c hc
    exact word_of_mem_alphabet (Base58.mem_encode c hc)
  have hline : successLine program =
      programText ++ (Base58.encode program.toList ++ successText) := by
    simp [successLine, successText]
  have hhere : endRegExHere (successLine program) = some (Base58.encode program.toList) := by
    generalize Base58.encode program.toList = name at hword hline
    have htake : (name ++ successText).takeWhile CharClasses.word = name := by
      rw [List.takeWhile_append_of_pos hword, successText,
        List.takeWhile_cons_of_neg (by simp [word_blank]), List.append_nil]
    have hdrop : (name ++ successText).dropWhile CharClasses.word = successText := by
      rw [List.dropWhile_append_of_pos hword, successText,
        List.dropWhile_cons_of_neg (by simp [word_blank])]
    rw [hline, endRegExHere, List.isPrefixOf?_eq_some_iff_append_eq.2 rfl]
    simp only [Option.bind_eq_bind, Option.bind_some]
    rw [htake, hdrop, List.isPrefixOf?_eq_some_iff_append_eq.2 (List.append_nil _)]
    rfl
  have hcons : successLine program = 'P' :: (successLine program).tail := rfl
  rw [hcons] at hhere ⊢
  rw [endRegEx, hhere, Option.some_or]

/-- The text of a key is read as the key. -/
theorem publicKey_encode (program : Key) :
    publicKey (Base58.encode program.toList) = some program := by
  simp only [publicKey, Base58.decode_encode, Option.bind_eq_bind, Option.bind_some,
    Vector.length_toList, dite_true]
  rfl

end Patterns

/-! ### The own tree is read -/

theorem depthOf_digitChar {n : ℕ} (h : n ≤ 9) : depthOf (Nat.digitChar n) = n - 1 := by
  have hdigit : ∀ n < 10, (Nat.digitChar n).toNat - 48 = n := by decide
  rw [depthOf, hdigit n (by omega)]

/-- What happens in a program is read up to its success line. -/
theorem parseInstructionLog_lines {body : Body} {level : ℕ} (hplain : ∀ l ∈ body.printed, Plain l)
    (hshallow : Shallow level body) (programId : Key) (rest : List Line) {fuel : ℕ}
    (hfuel : (body.lines level).length < fuel) :
    parseInstructionLog programId fuel (body.lines level ++ successLine programId :: rest) =
      some (textLogs level body, rest) := by
  obtain ⟨fuel, rfl⟩ : ∃ k, fuel = k + 1 := Nat.exists_eq_add_one.2 (by omega)
  induction body generalizing level programId rest fuel with
  | done =>
    rw [Body.lines, List.nil_append, parseInstructionLog, endRegEx_successLine]
    simp [textLogs]
  | print printed body ih =>
    obtain ⟨⟨hend, hstart⟩, hplain⟩ := List.forall_mem_cons.1 hplain
    rw [Body.lines, List.length_cons] at hfuel
    obtain ⟨fuel, rfl⟩ : ∃ k, fuel = k + 1 := Nat.exists_eq_add_one.2 (by omega)
    rw [Body.lines, List.cons_append, parseInstructionLog, hend, hstart]
    simp only [ih hplain hshallow programId rest fuel (by omega), textLogs, Option.bind_eq_bind,
      Option.bind_some]
  | invoke program body later ihbody ihlater =>
    obtain ⟨hlevel, hbody, hlater⟩ := hshallow
    rw [Body.printed, List.forall_mem_append] at hplain
    simp only [Body.lines, List.length_cons, List.length_append] at hfuel
    obtain ⟨fuel, rfl⟩ : ∃ k, fuel = k + 1 := Nat.exists_eq_add_one.2 (by omega)
    have hstart : startRegEx (invokeLine program level) = _ := captures_invokeLine (by omega)
    rw [Body.lines, List.cons_append, List.append_assoc, List.cons_append, parseInstructionLog,
      endRegEx_invokeLine, hstart]
    simp only [publicKey_encode, ihbody hplain.1 hbody program _ fuel (by omega),
      ihlater hplain.2 hlater programId rest fuel (by omega), depthOf_digitChar hlevel, textLogs,
      Option.bind_eq_bind, Option.bind_some]

/-- The lines of the transaction are read. -/
theorem parseLogs_lines {precompile : Key → Bool} {tops : List TopLevel}
    (hplain : ∀ l ∈ TopLevel.printed precompile tops, Plain l)
    (hshallow : ∀ top ∈ tops, precompile top.program = false → Shallow 2 top.body) {fuel : ℕ}
    (hfuel : (TopLevel.lines precompile tops).length < fuel) :
    parseLogs fuel (TopLevel.lines precompile tops) = some (callTrees precompile tops) := by
  induction tops generalizing fuel with
  | nil => cases fuel <;> rfl
  | cons top tops ih =>
    obtain ⟨hhead, htail⟩ := List.forall_mem_cons.1 hshallow
    rw [TopLevel.printed] at hplain
    rw [TopLevel.lines] at hfuel ⊢
    rw [callTrees]
    split_ifs at hplain hfuel ⊢ with hprecompile
    · exact ih hplain htail hfuel
    · rw [List.forall_mem_append] at hplain
      simp only [TopLevel.ownLines, List.length_cons, List.length_append] at hfuel
      obtain ⟨fuel, rfl⟩ : ∃ k, fuel = k + 1 := Nat.exists_eq_add_one.2 (by omega)
      have hstart : startRegEx (invokeLine top.program 1) = _ := captures_invokeLine (by norm_num)
      have hlt : (top.body.lines 2).length < fuel := by omega
      have hlt' : (TopLevel.lines precompile tops).length < fuel := by omega
      have hbody := parseInstructionLog_lines hplain.1 (hhead (by simpa using hprecompile))
        top.program (TopLevel.lines precompile tops) hlt
      rw [TopLevel.ownLines, List.append_assoc, List.singleton_append, parseLogs, hstart]
      simp only [publicKey_encode, hbody, ih hplain.2 htail hlt',
        depthOf_digitChar (by norm_num : 1 ≤ 9), Option.bind_eq_bind, Option.bind_some]
      rfl

/-! ### What is read is plain and shallow -/

/-- No line of the entries is taken for another one, and no depth is above 8. -/
def TextLogs.Readable : TextLogs → Prop
  | nil => True
  | line logLine rest => Plain logLine ∧ rest.Readable
  | parsedLog _ depth logs rest => depth ≤ 8 ∧ logs.Readable ∧ rest.Readable

/-- The level is a digit. -/
theorem depthOf_le {logLine program : Line} {level : Char}
    (h : startRegEx logLine = some (program, level)) : depthOf level ≤ 8 := by
  have hhere : ∀ text : Line, capturesHere text = some (program, level) → level.isDigit := by
    intro text h
    simp only [capturesHere, Option.bind_eq_bind, Option.bind_eq_some_iff] at h
    obtain ⟨rest, -, behind, -, h⟩ := h
    split at h
    · split_ifs at h with hdigit
      obtain ⟨-, rfl⟩ := Prod.mk.inj (Option.some.inj h)
      exact hdigit
    · cases h
  have hdigit : level.isDigit := by
    rw [startRegEx] at h
    induction logLine with
    | nil => exact hhere _ h
    | cons c logLine ih =>
      rw [captures, Option.or_eq_some_iff] at h
      rcases h with h | ⟨-, h⟩
      · exact hhere _ h
      · exact ih h
  have hle : level.toNat ≤ 57 := by
    simp only [Char.isDigit, Bool.and_eq_true, decide_eq_true_eq] at hdigit
    exact hdigit.2
  rw [depthOf]
  omega

theorem readable_of_parseInstructionLog {programId : Key} {fuel : ℕ} {lines rest : List Line}
    {logs : TextLogs} (h : parseInstructionLog programId fuel lines = some (logs, rest)) :
    logs.Readable := by
  induction fuel generalizing programId lines rest logs with
  | zero => cases h
  | succ fuel ih =>
    cases lines with
    | nil => cases h
    | cons logLine lines =>
      rw [parseInstructionLog] at h
      split at h
      · split_ifs at h
        obtain ⟨rfl, -⟩ := Prod.mk.inj (Option.some.inj h)
        trivial
      · rename_i hend
        split at h
        · rename_i program level hstart
          simp only [Option.bind_eq_bind, Option.bind_eq_some_iff, Option.some.injEq,
            Prod.mk.injEq] at h
          obtain ⟨child, -, ⟨inner, logs'⟩, hinner, ⟨later, logs''⟩, hlater, rfl, -⟩ := h
          exact ⟨depthOf_le hstart, ih hinner, ih hlater⟩
        · rename_i hstart
          simp only [Option.bind_eq_bind, Option.bind_eq_some_iff, Option.some.injEq,
            Prod.mk.injEq] at h
          obtain ⟨⟨later, logs'⟩, hlater, rfl, -⟩ := h
          exact ⟨⟨hend, hstart⟩, ih hlater⟩

theorem readable_of_parseLogs {fuel : ℕ} {lines : List Line} {trees : List TextLog}
    (h : parseLogs fuel lines = some trees) : ∀ tree ∈ trees, tree.logs.Readable := by
  induction fuel generalizing lines trees with
  | zero =>
    cases lines with
    | nil =>
      obtain rfl := Option.some.inj h
      simp
    | cons logLine lines => cases h
  | succ fuel ih =>
    cases lines with
    | nil =>
      obtain rfl := Option.some.inj h
      simp
    | cons logLine lines =>
      simp only [parseLogs, Option.bind_eq_bind, Option.bind_eq_some_iff, Option.some.injEq] at h
      obtain ⟨⟨program, level⟩, -, programId, -, ⟨inner, logs⟩, hinner, later, hlater, rfl⟩ := h
      exact List.forall_mem_cons.2 ⟨readable_of_parseInstructionLog hinner, ih hlater⟩

/-- The own entries are readable only if the printed lines are plain and the calls shallow. -/
theorem readable_textLogs {body : Body} {level : ℕ} (h : (textLogs level body).Readable) :
    (∀ l ∈ body.printed, Plain l) ∧ Shallow level body := by
  induction body generalizing level with
  | done => exact ⟨by simp [Body.printed], trivial⟩
  | print printed rest ih => exact ⟨List.forall_mem_cons.2 ⟨h.1, (ih h.2).1⟩, (ih h.2).2⟩
  | invoke program body rest ihbody ihrest =>
    obtain ⟨hdepth, hbody, hrest⟩ := h
    obtain ⟨hplain, hshallow⟩ := ihbody hbody
    obtain ⟨hplain', hshallow'⟩ := ihrest hrest
    exact ⟨List.forall_mem_append.2 ⟨hplain, hplain'⟩, by omega, hshallow, hshallow'⟩

theorem readable_callTrees {precompile : Key → Bool} {tops : List TopLevel}
    (h : ∀ tree ∈ callTrees precompile tops, tree.logs.Readable) :
    (∀ l ∈ TopLevel.printed precompile tops, Plain l) ∧
      ∀ top ∈ tops, precompile top.program = false → Shallow 2 top.body := by
  induction tops with
  | nil => simp [TopLevel.printed]
  | cons top tops ih =>
    rw [callTrees] at h
    rw [TopLevel.printed, List.forall_mem_cons]
    split_ifs at h ⊢ with hprecompile
    · obtain ⟨hplain, hshallow⟩ := ih h
      exact ⟨hplain, fun hinvoked => absurd hprecompile (by simp [hinvoked]), hshallow⟩
    · rw [List.forall_mem_cons] at h
      obtain ⟨hplain, hshallow⟩ := readable_textLogs h.1
      obtain ⟨hplain', hshallow'⟩ := ih h.2
      exact ⟨List.forall_mem_append.2 ⟨hplain, hplain'⟩, fun _ => hshallow, hshallow'⟩

/-- The parser recovers the tree of the calls if and only if no printed line is taken for an invoke
line or a success line, and no call is at a level above 9. -/
theorem parseLogs_callTrees_iff (precompile : Key → Bool) (tops : List TopLevel) :
    (∀ fuel, (TopLevel.lines precompile tops).length < fuel →
      parseLogs fuel (TopLevel.lines precompile tops) = some (callTrees precompile tops)) ↔
      (∀ l ∈ TopLevel.printed precompile tops, Plain l) ∧
        ∀ top ∈ tops, precompile top.program = false → Shallow 2 top.body :=
  ⟨fun h => readable_callTrees (readable_of_parseLogs (h _ (Nat.lt_succ_self _))),
    fun h _ => parseLogs_lines h.1 h.2⟩

/-- The lines of two instructions, of which the first logs a text. -/
def printingLines (text : Line) : List Line := TopLevel.lines (fun _ => false) (printing text)

example : parseLogs 6 (printingLines ['h', 'i']) =
    some (callTrees (fun _ => false) (printing ['h', 'i'])) := by
  decide +kernel

/-- A program that logs that another one succeeded ends the parser with an exception.  After one
that logs that it succeeded itself, its own end is taken for a line of the transaction, which is an
exception too. -/
theorem parseLogs_success_logged :
    ((printingLines (successLine (oneByte 3))).length < 6 ∧
      parseLogs 6 (printingLines (successLine (oneByte 3))) = none) ∧
    (printingLines (successLine (oneByte 1))).length < 6 ∧
      parseLogs 6 (printingLines (successLine (oneByte 1))) = none := by
  decide +kernel

end Candyland.Sdk.Indexer

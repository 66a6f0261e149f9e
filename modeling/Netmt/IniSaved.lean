/-
This file proves that an INI document survives being saved and loaded.

`DumpString` separates the texts of the nodes by line ends, so the lines of the
whole are the lines of the nodes in their order, and a line that `DumpString`
writes for a node is read back as that node. Loading can move comments to another
node, but it cannot change the text any more, nor what a lookup finds. Only a key
of the root that is set while the document has sections is lost: it is written
behind them, and becomes a key of the last one.
-/
import Netmt.IniDocument

namespace Netmt

open CMem Trim

/-! ### Lines of joined texts -/

theorem getlines_eq_nil_iff {str : List UInt8} : getlines str = [] ↔ str = [] := by
  cases str with
  | nil => simp [getlines]
  | cons byte rest =>
    simp only [getlines, List.cons_ne_nil, iff_false]
    split
    · exact List.cons_ne_nil _ _
    · split <;> exact List.cons_ne_nil _ _

theorem getlines_append_LF (front back : List UInt8) :
    getlines (front ++ LF :: back) = getlines (front ++ [LF]) ++ getlines back := by
  induction front with
  | nil => simp [getlines]
  | cons byte rest inductionHypothesis =>
    rw [List.cons_append, List.cons_append, getlines, getlines, inductionHypothesis]
    split
    · rfl
    · cases lines : getlines (rest ++ [LF]) with
      | nil => exact absurd (getlines_eq_nil_iff.mp lines) (by simp)
      | cons line lines => rfl

/-- A line end behind a text that does not end in one. -/
theorem getlines_concat_LF {str : List UInt8} (nonempty : str ≠ [])
    (open_ : str.getLast? ≠ some LF) : getlines (str ++ [LF]) = getlines str := by
  induction str with
  | nil => exact absurd rfl nonempty
  | cons byte rest inductionHypothesis =>
    rw [List.cons_append, getlines, getlines]
    by_cases last : rest = []
    · subst last
      have notLF : byte ≠ LF := by
        rintro rfl
        exact open_ rfl
      simp [getlines, notLF]
    · rw [List.getLast?_cons_of_ne_nil last] at open_
      rw [inductionHypothesis last open_]

/-- The text is empty, or its last line is ended. -/
def LineEnded (str : List UInt8) : Prop := str = [] ∨ ∃ front, str = front ++ [LF]

theorem lineEnded_separate (str : List UInt8) : LineEnded (separate str) := by
  unfold separate
  split
  · exact .inr ⟨str, rfl⟩
  · rename_i notOpen
    by_cases empty : str = []
    · exact .inl empty
    · have ended : str.getLast? = some LF := by
        by_contra open_
        exact notOpen ⟨empty, open_⟩
      exact .inr (List.getLast?_eq_some_iff.mp ended)

theorem separate_of_lineEnded {str : List UInt8} (ended : LineEnded str) : separate str = str := by
  unfold separate
  rcases ended with rfl | ⟨front, rfl⟩ <;> simp

theorem getlines_separate (str : List UInt8) : getlines (separate str) = getlines str := by
  unfold separate
  split
  · rename_i isOpen
    exact getlines_concat_LF isOpen.1 isOpen.2
  · rfl

theorem LineEnded.getlines_append {front : List UInt8} (ended : LineEnded front)
    (back : List UInt8) : getlines (front ++ back) = getlines front ++ getlines back := by
  rcases ended with rfl | ⟨front, rfl⟩
  · rfl
  · rw [List.append_assoc, List.singleton_append, getlines_append_LF]

theorem getlines_of_notMem {line : List UInt8} (nonempty : line ≠ []) (one : LF ∉ line) :
    getlines line = [line] := by
  induction line with
  | nil => exact absurd rfl nonempty
  | cons byte rest inductionHypothesis =>
    rw [List.mem_cons, not_or] at one
    obtain ⟨notLF, others⟩ := one
    rw [getlines, if_neg (Ne.symm notLF)]
    by_cases last : rest = []
    · subst last
      rfl
    · rw [inductionHypothesis last others]

/-- A line holds no line end, and only what the text holds. -/
theorem mem_getlines {str line : List UInt8} (listed : line ∈ getlines str) :
    LF ∉ line ∧ ∀ byte ∈ line, byte ∈ str := by
  induction str generalizing line with
  | nil => cases listed
  | cons first rest inductionHypothesis =>
    rw [getlines] at listed
    split at listed
    · rcases List.mem_cons.mp listed with rfl | inRest
      · exact ⟨List.not_mem_nil, nofun⟩
      · obtain ⟨one, inside⟩ := inductionHypothesis inRest
        exact ⟨one, fun byte inLine => List.mem_cons_of_mem _ (inside byte inLine)⟩
    · rename_i notLF
      cases lines : getlines rest with
      | nil =>
        rw [lines] at listed
        cases List.mem_singleton.mp listed
        refine ⟨fun isLF => notLF (List.mem_singleton.mp isLF).symm, fun byte inLine => ?_⟩
        exact List.mem_singleton.mp inLine ▸ List.mem_cons_self
      | cons head tail =>
        rw [lines] at listed
        rcases List.mem_cons.mp listed with rfl | inTail
        · obtain ⟨one, inside⟩ := inductionHypothesis (lines ▸ List.mem_cons_self)
          refine ⟨fun isLF => ?_, fun byte inLine => ?_⟩
          · rcases List.mem_cons.mp isLF with same | inHead
            · exact notLF same.symm
            · exact one inHead
          · rcases List.mem_cons.mp inLine with rfl | inHead
            · exact List.mem_cons_self
            · exact List.mem_cons_of_mem _ (inside byte inHead)
        · obtain ⟨one, inside⟩ := inductionHypothesis (lines ▸ List.mem_cons_of_mem _ inTail)
          exact ⟨one, fun byte inLine => List.mem_cons_of_mem _ (inside byte inLine)⟩

/-- A text whose lines are all ended is its lines. -/
theorem LineEnded.flatMap_getlines {str : List UInt8} (ended : LineEnded str) :
    (getlines str).flatMap (· ++ [LF]) = str := by
  have flat (front : List UInt8) :
      (getlines (front ++ [LF])).flatMap (· ++ [LF]) = front ++ [LF] := by
    induction front with
    | nil => rfl
    | cons byte rest inductionHypothesis =>
      rw [List.cons_append, getlines]
      split
      · rename_i isLF
        rw [List.flatMap_cons, inductionHypothesis, isLF]
        rfl
      · cases lines : getlines (rest ++ [LF]) with
        | nil => exact absurd (getlines_eq_nil_iff.mp lines) (by simp)
        | cons line tail =>
          rw [lines, List.flatMap_cons] at inductionHypothesis
          rw [List.flatMap_cons, List.cons_append, List.cons_append, inductionHypothesis]
  rcases ended with rfl | ⟨front, rfl⟩
  · rfl
  · exact flat front

/-! ### The texts of the nodes -/

/-- What `DumpString` writes for a child of a section. -/
def IniEntry.text : IniEntry → List UInt8
  | .keyValue label value span =>
    label.takeWhile (· ≠ 0) ++ [32, iniDelim, 32] ++ value.takeWhile (· ≠ 0) ++ dumpSpan span
  | .div label => label

/-- What `DumpString` writes for a section, without its children. -/
def IniScope.text (scope : IniScope) : List UInt8 :=
  [91] ++ scope.label ++ [93] ++ dumpSpan scope.span

/-- The texts that `DumpString` writes for a child of the root. -/
def IniChild.texts : IniChild → List (List UInt8)
  | .entry node => [node.text]
  | .scope node => node.text :: node.children.map IniEntry.text

/-- The texts that `DumpString` writes. -/
def IniDocument.texts (document : IniDocument) : List (List UInt8) :=
  document.children.flatMap IniChild.texts

/-- Another text behind what was written. -/
def emit (str new : List UInt8) : List UInt8 := separate str ++ new

theorem dumpEntry_eq (str : List UInt8) (entry : IniEntry) :
    dumpEntry str entry = emit str entry.text := by
  cases entry <;> simp [dumpEntry, emit, IniEntry.text]

theorem dumpChild_eq (str : List UInt8) (child : IniChild) :
    dumpChild str child = child.texts.foldl emit str := by
  cases child with
  | entry entry => exact dumpEntry_eq str entry
  | scope scope =>
    have entries (start : List UInt8) : scope.children.foldl dumpEntry start =
        (scope.children.map IniEntry.text).foldl emit start := by
      rw [List.foldl_map]
      exact congrArg (fun step => scope.children.foldl step start)
        (funext fun str => funext fun entry => dumpEntry_eq str entry)
    rw [dumpChild, dumpScope, entries, IniChild.texts, List.foldl_cons]
    simp [emit, IniScope.text]

theorem dumpString_eq (document : IniDocument) :
    dumpString document = document.texts.foldl emit [] := by
  rw [dumpString, IniDocument.texts, List.foldl_flatMap]
  exact congrArg (fun step => document.children.foldl step [])
    (funext fun str => funext fun child => dumpChild_eq str child)

theorem getlines_emit (str new : List UInt8) :
    getlines (emit str new) = getlines str ++ getlines new := by
  rw [emit, (lineEnded_separate str).getlines_append, getlines_separate]

/-- The lines of the whole are the lines of the nodes. -/
theorem getlines_dumpString (document : IniDocument) :
    getlines (dumpString document) = document.texts.flatMap getlines := by
  have folded (texts : List (List UInt8)) (str : List UInt8) :
      getlines (texts.foldl emit str) = getlines str ++ texts.flatMap getlines := by
    induction texts generalizing str with
    | nil => simp
    | cons new rest inductionHypothesis =>
      rw [List.foldl_cons, inductionHypothesis, getlines_emit, List.flatMap_cons, List.append_assoc]
  rw [dumpString_eq, folded]
  rfl

/-! ### What a file can hold -/

/-- A blank of `SPACE_CHARS`. -/
def isBlank (byte : UInt8) : Bool := byte ∈ spaceChars

theorem trim_eq (str : List UInt8) : trim str = trimmed isBlank str := rfl

/-- A text that a line can hold between its other parts. -/
structure PlainText (str : List UInt8) : Prop where
  oneLine : LF ∉ str
  noNul : 0 ∉ str
  uncommented : iniComment ∉ str
  bare : Bare isBlank str

/-- A text that is read as a key. -/
structure PlainKey (key : List UInt8) : Prop extends PlainText key where
  undivided : iniDelim ∉ key
  noBracket : key.head? ≠ some 91

/-- A text that is read as the comment of a node. -/
structure PlainSpan (span : List UInt8) : Prop where
  starts : span.head? = some iniComment
  oneLine : LF ∉ span
  noNul : 0 ∉ span

/-- A line that is blank or holds a comment only. -/
structure CommentLine (line : List UInt8) : Prop where
  noContent : iniContent line = []
  blank : trimL line = [] → line = []

/-- A node whose text is read as that node. -/
def IniEntry.Plain : IniEntry → Prop
  | .keyValue label value span =>
    PlainKey label ∧ PlainText value ∧ ∀ comment ∈ span, PlainSpan comment
  | .div label => label ≠ [] ∧ LineEnded label ∧ 0 ∉ label ∧
    ∀ line ∈ getlines label, CommentLine line

/-- A section whose texts are read as that section. -/
structure IniScope.Plain (scope : IniScope) : Prop where
  label : PlainText scope.label
  span : ∀ comment ∈ scope.span, PlainSpan comment
  children : ∀ entry ∈ scope.children, entry.Plain

def IniChild.Plain : IniChild → Prop
  | .entry node => node.Plain
  | .scope node => node.Plain

def IniDocument.Plain (document : IniDocument) : Prop := ∀ child ∈ document.children, child.Plain

/-! ### Reading a node back -/

theorem takeWhile_of_notMem {str : List UInt8} {byte : UInt8} (absent : byte ∉ str)
    (rest : List UInt8) :
    (str ++ byte :: rest).takeWhile (· ≠ byte) = str ∧
      (str ++ byte :: rest).dropWhile (· ≠ byte) = byte :: rest := by
  induction str with
  | nil => simp
  | cons first others inductionHypothesis =>
    rw [List.mem_cons, not_or] at absent
    obtain ⟨different, inOthers⟩ := absent
    obtain ⟨taken, dropped⟩ := inductionHypothesis inOthers
    rw [List.cons_append, List.takeWhile_cons_of_pos (by simpa using Ne.symm different),
      List.dropWhile_cons_of_pos (by simpa using Ne.symm different), taken, dropped]
    exact ⟨rfl, rfl⟩

theorem takeWhile_eq_self {str : List UInt8} {byte : UInt8} (absent : byte ∉ str) :
    str.takeWhile (· ≠ byte) = str ∧ str.dropWhile (· ≠ byte) = [] := by
  have all : ∀ other ∈ str, decide (other ≠ byte) = true := by
    intro other listed
    rw [decide_eq_true_eq]
    rintro rfl
    exact absent listed
  exact ⟨List.takeWhile_eq_self_iff.mpr all, List.dropWhile_eq_nil_iff.mpr all⟩

/-- The tab that `DumpString` puts in front of a comment. -/
def spanTab : Option (List UInt8) → List UInt8
  | none => []
  | some _ => [9]

theorem isBlank_spanTab {span : Option (List UInt8)} {byte : UInt8} (listed : byte ∈ spanTab span) :
    isBlank byte = true := by
  cases span with
  | none => cases listed
  | some comment =>
    cases List.mem_singleton.mp listed
    decide

/-- The comment of a node is what stands behind its text. -/
theorem split_span {str : List UInt8} {span : Option (List UInt8)} (uncommented : iniComment ∉ str)
    (plain : ∀ comment ∈ span, PlainSpan comment) :
    (str ++ dumpSpan span).takeWhile (· ≠ iniComment) = str ++ spanTab span ∧
      (str ++ dumpSpan span).dropWhile (· ≠ iniComment) = span.getD [] := by
  cases span with
  | none =>
    rw [dumpSpan, spanTab, List.append_nil]
    exact takeWhile_eq_self uncommented
  | some comment =>
    obtain ⟨rest, rfl⟩ := List.head?_eq_some_iff.mp (plain comment rfl).starts
    have absent : iniComment ∉ str ++ [9] := by
      rw [List.mem_append, not_or]
      exact ⟨uncommented, by decide⟩
    have split := takeWhile_of_notMem absent rest
    rwa [List.append_assoc, List.singleton_append] at split

theorem iniSpan_getD {span : Option (List UInt8)} (plain : ∀ comment ∈ span, PlainSpan comment) :
    iniSpan (span.getD []) = span := by
  cases span with
  | none => rfl
  | some comment =>
    refine if_neg fun empty => ?_
    have starts := (plain comment rfl).starts
    rw [show comment = [] from empty] at starts
    cases starts

/-- A line of a pair is read as that pair. -/
theorem IniLoad.addLine_keyValue (load : IniLoad) {label value : List UInt8}
    {span : Option (List UInt8)} (key : PlainKey label) (plain : PlainText value)
    (comment : ∀ comment ∈ span, PlainSpan comment) :
    load.addLine (IniEntry.text (.keyValue label value span)) =
      load.flush.add (.keyValue label value span) := by
  have notBlank : isBlank iniDelim = false := by decide
  have space : ∀ byte ∈ [(32 : UInt8)], isBlank byte = true :=
    List.forall_mem_singleton.mpr (by decide)
  have line : IniEntry.text (.keyValue label value span) =
      (label ++ [32]) ++ iniDelim :: ((32 :: value) ++ dumpSpan span) := by
    rw [IniEntry.text, (takeWhile_eq_self key.noNul).1, (takeWhile_eq_self plain.noNul).1]
    simp
  obtain ⟨left, isLeft⟩ : ∃ left, left = (label ++ [32]).dropWhile (isBlank ·) := ⟨_, rfl⟩
  obtain ⟨right, isRight⟩ : ∃ right, right = (32 :: value).rdropWhile (isBlank ·) := ⟨_, rfl⟩
  have front : trimL (IniEntry.text (.keyValue label value span)) =
      (left ++ iniDelim :: 32 :: value) ++ dumpSpan span := by
    rw [line, isLeft]
    refine (dropWhile_append_of_not notBlank).trans ?_
    simp
  have uncommented : iniComment ∉ left ++ iniDelim :: 32 :: value := by
    have inLeft : iniComment ∉ left := fun listed => by
      rw [isLeft] at listed
      rcases List.mem_append.mp ((List.dropWhile_sublist _).subset listed) with inLabel | isSpace
      · exact key.uncommented inLabel
      · exact absurd isSpace (by decide)
    rw [List.mem_append, List.mem_cons, List.mem_cons]
    rintro (listed | isDelim | isSpace | listed)
    · exact inLeft listed
    · exact absurd isDelim (by decide)
    · exact absurd isSpace (by decide)
    · exact plain.uncommented listed
  obtain ⟨taken, dropped⟩ := split_span uncommented comment
  have content : iniContent (IniEntry.text (.keyValue label value span)) =
      left ++ iniDelim :: right := by
    rw [iniContent, front, taken, isRight]
    show ((left ++ iniDelim :: 32 :: value) ++ spanTab span).rdropWhile (isBlank ·) = _
    rw [rdropWhile_append_of_all fun byte listed => isBlank_spanTab listed]
    exact rdropWhile_append_of_not left notBlank
  have undivided : iniDelim ∉ left := fun listed => by
    rw [isLeft] at listed
    rcases List.mem_append.mp ((List.dropWhile_sublist _).subset listed) with inLabel | isSpace
    · exact key.undivided inLabel
    · exact absurd isSpace (by decide)
  obtain ⟨takenLeft, droppedLeft⟩ := takeWhile_of_notMem undivided right
  have isKey : trim left = label := by
    rw [trim_eq, isLeft, trimmed_dropWhile, trimmed_append space, key.bare.trimmed_eq]
  have isValue : trim right = value := by
    rw [trim_eq, isRight, trimmed_rdropWhile, ← List.singleton_append, append_trimmed space,
      plain.bare.trimmed_eq]
  have noBracket : (left ++ iniDelim :: right).head? ≠ some 91 := by
    cases label with
    | nil =>
      have none : ([] ++ [(32 : UInt8)]).dropWhile (isBlank ·) = [] := by decide
      rw [isLeft, none]
      show some iniDelim ≠ some 91
      decide
    | cons first rest =>
      have stays : (first :: rest ++ [32]).dropWhile (isBlank ·) = first :: rest ++ [32] :=
        dropWhile_of_head fun byte isFirst => key.bare.head byte isFirst
      rw [isLeft, stays]
      exact key.noBracket
  have nonempty : trimL (IniEntry.text (.keyValue label value span)) ≠ [] := by
    rw [front]
    simp
  rw [IniLoad.addLine, if_neg nonempty, content, if_neg (by simp), front, dropped,
    IniLoad.addContent, if_neg noBracket, if_pos (by simp), takenLeft, droppedLeft, isKey,
    List.drop_one, List.tail_cons, isValue, iniSpan_getD comment]

/-- The line of a section is read as that section. -/
theorem IniLoad.addLine_scope (load : IniLoad) {scope : IniScope} (plain : PlainText scope.label)
    (comment : ∀ comment ∈ scope.span, PlainSpan comment) :
    load.addLine scope.text =
      { load.flush with scopes := ⟨scope.label, scope.span, []⟩ :: load.flush.scopes } := by
  have front : trimL scope.text = ([91] ++ scope.label ++ [93]) ++ dumpSpan scope.span :=
    dropWhile_of_head fun byte isFirst => by
      cases Option.mem_some_iff.mp isFirst
      decide
  have uncommented : iniComment ∉ [91] ++ scope.label ++ [93] := by
    rw [List.mem_append, List.mem_append]
    rintro ((isOpen | listed) | isClose)
    · exact absurd isOpen (by decide)
    · exact plain.uncommented listed
    · exact absurd isClose (by decide)
  obtain ⟨taken, dropped⟩ := split_span uncommented comment
  have content : iniContent scope.text = [91] ++ scope.label ++ [93] := by
    rw [iniContent, front, taken]
    show (([91] ++ scope.label ++ [93]) ++ spanTab scope.span).rdropWhile (isBlank ·) = _
    rw [rdropWhile_append_of_all fun byte listed => isBlank_spanTab listed]
    exact List.rdropWhile_concat_neg _ _ _ (by decide)
  have inside : (([91] ++ scope.label ++ [93]).drop 1).take
      (([91] ++ scope.label ++ [93]).length - 2) = scope.label := by
    simp
  have nonempty : trimL scope.text ≠ [] := by
    rw [front]
    simp
  have opens : ([91] ++ scope.label ++ [93]).head? = some 91 := rfl
  have closes : ([91] ++ scope.label ++ [93]).getLast? = some 93 := List.getLast?_concat
  rw [IniLoad.addLine, if_neg nonempty, content, if_neg (by simp), front, dropped,
    IniLoad.addContent, if_pos opens, if_pos closes, inside, trim_eq,
    plain.bare.trimmed_eq, iniSpan_getD comment]

/-- A line with a comment only is kept as it is. -/
theorem IniLoad.addLine_comment (load : IniLoad) {line : List UInt8}
    (isComment : CommentLine line) :
    load.addLine line = { load with strDiv := load.strDiv ++ line ++ [LF] } := by
  unfold IniLoad.addLine
  split
  · rename_i blank
    rw [isComment.blank blank, List.append_nil]
  · rw [if_pos isComment.noContent]

/-! ### The text of what was read -/

/-- The texts of the nodes that were read. -/
def IniLoad.kept (load : IniLoad) : List (List UInt8) :=
  load.own.map IniEntry.text ++
    load.scopes.reverse.flatMap fun scope => (IniChild.scope scope).texts

theorem IniLoad.document_texts (load : IniLoad) :
    load.document.texts = load.kept ++ if load.strDiv = [] then [] else [load.strDiv] := by
  unfold IniLoad.document IniDocument.texts IniLoad.kept
  rw [List.flatMap_append, List.flatMap_append, List.flatMap_map, List.flatMap_map]
  congr 1
  · congr 1
    exact List.flatMap_pure_eq_map _ _
  · split <;> rfl

theorem IniLoad.add_kept (load : IniLoad) (entry : IniEntry) :
    (load.add entry).kept = load.kept ++ [entry.text] := by
  unfold IniLoad.add IniLoad.kept
  cases load.scopes with
  | nil => simp
  | cons scope older => simp [IniChild.texts, IniScope.text]

theorem IniLoad.add_strDiv (load : IniLoad) (entry : IniEntry) :
    (load.add entry).strDiv = load.strDiv := by
  unfold IniLoad.add
  cases load.scopes <;> rfl

theorem IniLoad.flush_spec (load : IniLoad) :
    load.flush.kept = load.document.texts ∧ load.flush.strDiv = [] := by
  rw [load.document_texts]
  unfold IniLoad.flush
  split
  · rename_i nothing
    exact ⟨(List.append_nil _).symm, nothing⟩
  · exact ⟨load.add_kept _, rfl⟩

/-- What `DumpString` would write after what was read. -/
def IniLoad.dumped (load : IniLoad) : List UInt8 := load.document.texts.foldl emit []

theorem dumpString_document (load : IniLoad) : dumpString load.document = load.dumped :=
  dumpString_eq _

/-- A node behind what was read. -/
theorem IniLoad.dumped_node {load next : IniLoad} {new : List UInt8}
    (kept : next.kept = load.document.texts ++ [new]) (noDiv : next.strDiv = []) :
    next.dumped = emit load.dumped new := by
  rw [IniLoad.dumped, next.document_texts, noDiv, if_pos rfl, List.append_nil, kept,
    List.foldl_append]
  rfl

theorem lineEnded_concat (front : List UInt8) : LineEnded (front ++ [LF]) := .inr ⟨front, rfl⟩

theorem emit_ended {str new : List UInt8} (ended : LineEnded new) (nonempty : new ≠ []) :
    LineEnded (emit str new) := by
  obtain rfl | ⟨front, rfl⟩ := ended
  · exact absurd rfl nonempty
  · exact .inr ⟨separate str ++ front, (List.append_assoc _ _ _).symm⟩

/-- A line with a comment behind what was read. -/
theorem IniLoad.dumped_comment {load : IniLoad} (ended : LineEnded load.strDiv)
    {line : List UInt8} (isComment : CommentLine line) :
    (load.addLine line).dumped = emit load.dumped (line ++ [LF]) ∧
      LineEnded (load.addLine line).strDiv := by
  rw [load.addLine_comment isComment]
  refine ⟨?_, lineEnded_concat _⟩
  unfold IniLoad.dumped
  rw [IniLoad.document_texts, IniLoad.document_texts]
  show (load.kept ++ if load.strDiv ++ line ++ [LF] = [] then [] else
    [load.strDiv ++ line ++ [LF]]).foldl emit [] = _
  rw [if_neg (by simp), List.foldl_append]
  by_cases nothing : load.strDiv = []
  · rw [if_pos nothing, List.append_nil, nothing]
    rfl
  · rw [if_neg nothing, List.foldl_append]
    show emit _ _ = emit (emit _ _) _
    rw [emit, emit, separate_of_lineEnded (emit_ended ended nothing), emit]
    simp

/-- Texts that are all ended need no separator between them. -/
theorem foldl_emit_ended {texts : List (List UInt8)} (nonempty : texts ≠ [])
    (ended : ∀ new ∈ texts, LineEnded new ∧ new ≠ []) (str : List UInt8) :
    texts.foldl emit str = emit str texts.flatten := by
  induction texts generalizing str with
  | nil => exact absurd rfl nonempty
  | cons new rest inductionHypothesis =>
    obtain ⟨newEnded, newNonempty⟩ := ended new List.mem_cons_self
    rw [List.foldl_cons, List.flatten_cons]
    by_cases last : rest = []
    · subst last
      simp
    · rw [inductionHypothesis last fun other listed => ended other (List.mem_cons_of_mem _ listed),
        emit, separate_of_lineEnded (emit_ended newEnded newNonempty), emit, emit,
        List.append_assoc]

theorem dumpSpan_clean {span : Option (List UInt8)} (plain : ∀ comment ∈ span, PlainSpan comment) :
    LF ∉ dumpSpan span ∧ 0 ∉ dumpSpan span := by
  cases span with
  | none => exact ⟨List.not_mem_nil, List.not_mem_nil⟩
  | some comment =>
    have clean := plain comment rfl
    simp only [dumpSpan, List.mem_cons, not_or]
    exact ⟨⟨by decide, clean.oneLine⟩, by decide, clean.noNul⟩

theorem keyValue_clean {label value : List UInt8} {span : Option (List UInt8)}
    (key : PlainKey label) (plain : PlainText value)
    (comment : ∀ comment ∈ span, PlainSpan comment) :
    LF ∉ IniEntry.text (.keyValue label value span) ∧
      0 ∉ IniEntry.text (.keyValue label value span) := by
  obtain ⟨oneLine, noNul⟩ := dumpSpan_clean comment
  rw [IniEntry.text, (takeWhile_eq_self key.noNul).1, (takeWhile_eq_self plain.noNul).1]
  simp only [List.mem_append, not_or]
  exact ⟨⟨⟨⟨key.oneLine, by decide⟩, plain.oneLine⟩, oneLine⟩,
    ⟨⟨key.noNul, by decide⟩, plain.noNul⟩, noNul⟩

theorem scope_clean {scope : IniScope} (plain : scope.Plain) :
    LF ∉ scope.text ∧ 0 ∉ scope.text := by
  obtain ⟨oneLine, noNul⟩ := dumpSpan_clean plain.span
  rw [IniScope.text]
  simp only [List.mem_append, not_or]
  exact ⟨⟨⟨⟨by decide, plain.label.oneLine⟩, by decide⟩, oneLine⟩,
    ⟨⟨by decide, plain.label.noNul⟩, by decide⟩, noNul⟩

theorem IniLoad.dumped_comments {load : IniLoad} (ended : LineEnded load.strDiv)
    {lines : List (List UInt8)} (comments : ∀ line ∈ lines, CommentLine line) :
    (lines.foldl IniLoad.addLine load).dumped = (lines.map (· ++ [LF])).foldl emit load.dumped ∧
      LineEnded (lines.foldl IniLoad.addLine load).strDiv := by
  induction lines generalizing load with
  | nil => exact ⟨rfl, ended⟩
  | cons line rest inductionHypothesis =>
    obtain ⟨dumped, endedNext⟩ := load.dumped_comment ended (comments line List.mem_cons_self)
    obtain ⟨dumpedRest, endedRest⟩ := inductionHypothesis endedNext
      fun other listed => comments other (List.mem_cons_of_mem _ listed)
    exact ⟨by rw [List.foldl_cons, dumpedRest, dumped, List.map_cons, List.foldl_cons], endedRest⟩

/-- The lines of a node behind what was read. -/
theorem IniLoad.dumped_entry {load : IniLoad} (ended : LineEnded load.strDiv) {entry : IniEntry}
    (plain : entry.Plain) :
    ((getlines entry.text).foldl IniLoad.addLine load).dumped = emit load.dumped entry.text ∧
      LineEnded ((getlines entry.text).foldl IniLoad.addLine load).strDiv := by
  cases entry with
  | keyValue label value span =>
    obtain ⟨key, plainValue, comment⟩ := plain
    obtain ⟨flushed, noDiv⟩ := load.flush_spec
    have nonempty : IniEntry.text (.keyValue label value span) ≠ [] := by simp [IniEntry.text]
    rw [getlines_of_notMem nonempty (keyValue_clean key plainValue comment).1, List.foldl_cons,
      List.foldl_nil, load.addLine_keyValue key plainValue comment]
    have empty := (load.flush.add_strDiv (.keyValue label value span)).trans noDiv
    exact ⟨load.dumped_node (by rw [IniLoad.add_kept, flushed]) empty, .inl empty⟩
  | div label =>
    obtain ⟨nonempty, endedLabel, noNul, comments⟩ := plain
    obtain ⟨dumped, endedAfter⟩ := load.dumped_comments ended comments
    refine ⟨dumped.trans ?_, endedAfter⟩
    have someLines : (getlines label).map (· ++ [LF]) ≠ [] := by
      rwa [ne_eq, List.map_eq_nil_iff, getlines_eq_nil_iff]
    rw [show IniEntry.text (.div label) = label from rfl, foldl_emit_ended someLines,
      ← List.flatMap_def, endedLabel.flatMap_getlines]
    intro new listed
    obtain ⟨line, -, rfl⟩ := List.mem_map.mp listed
    exact ⟨lineEnded_concat line, by simp⟩

theorem IniLoad.dumped_entries {load : IniLoad} (ended : LineEnded load.strDiv)
    {entries : List IniEntry} (plain : ∀ entry ∈ entries, entry.Plain) :
    (((entries.map IniEntry.text).flatMap getlines).foldl IniLoad.addLine load).dumped =
        (entries.map IniEntry.text).foldl emit load.dumped ∧
      LineEnded
        (((entries.map IniEntry.text).flatMap getlines).foldl IniLoad.addLine load).strDiv := by
  induction entries generalizing load with
  | nil => exact ⟨rfl, ended⟩
  | cons entry rest inductionHypothesis =>
    obtain ⟨dumped, endedNext⟩ := load.dumped_entry ended (plain entry List.mem_cons_self)
    obtain ⟨dumpedRest, endedRest⟩ := inductionHypothesis endedNext
      fun other listed => plain other (List.mem_cons_of_mem _ listed)
    rw [List.map_cons, List.flatMap_cons, List.foldl_append, List.foldl_cons, dumpedRest, dumped]
    exact ⟨rfl, endedRest⟩

theorem IniLoad.dumped_child {load : IniLoad} (ended : LineEnded load.strDiv) {child : IniChild}
    (plain : child.Plain) :
    ((child.texts.flatMap getlines).foldl IniLoad.addLine load).dumped =
        child.texts.foldl emit load.dumped ∧
      LineEnded ((child.texts.flatMap getlines).foldl IniLoad.addLine load).strDiv := by
  cases child with
  | entry node =>
    have all : ∀ entry ∈ [node], entry.Plain := fun entry listed =>
      List.mem_singleton.mp listed ▸ plain
    exact load.dumped_entries ended all
  | scope node =>
    obtain ⟨flushed, noDiv⟩ := load.flush_spec
    have nonempty : node.text ≠ [] := by simp [IniScope.text]
    have opened : (getlines node.text).foldl IniLoad.addLine load =
        { load.flush with scopes := ⟨node.label, node.span, []⟩ :: load.flush.scopes } := by
      rw [getlines_of_notMem nonempty (scope_clean plain).1, List.foldl_cons, List.foldl_nil,
        load.addLine_scope plain.label plain.span]
    have dumped : ((getlines node.text).foldl IniLoad.addLine load).dumped =
        emit load.dumped node.text := by
      rw [opened]
      refine load.dumped_node ?_ noDiv
      rw [← flushed, IniLoad.kept, IniLoad.kept]
      simp [IniChild.texts, IniScope.text]
    have endedOpened : LineEnded ((getlines node.text).foldl IniLoad.addLine load).strDiv := by
      rw [opened]
      exact .inl noDiv
    obtain ⟨dumpedRest, endedRest⟩ := IniLoad.dumped_entries endedOpened plain.children
    rw [IniChild.texts, List.flatMap_cons, List.foldl_append, List.foldl_cons, dumpedRest, dumped]
    exact ⟨rfl, endedRest⟩

theorem mem_foldl_emit {texts : List (List UInt8)} {str : List UInt8} {byte : UInt8}
    (listed : byte ∈ texts.foldl emit str) :
    byte = LF ∨ byte ∈ str ∨ ∃ new ∈ texts, byte ∈ new := by
  induction texts generalizing str with
  | nil => exact .inr (.inl listed)
  | cons new rest inductionHypothesis =>
    rcases inductionHypothesis listed with isLF | inEmit | ⟨other, inRest, inOther⟩
    · exact .inl isLF
    · rcases List.mem_append.mp inEmit with inSeparate | inNew
      · unfold separate at inSeparate
        split at inSeparate
        · rcases List.mem_append.mp inSeparate with inStr | isLF
          · exact .inr (.inl inStr)
          · exact .inl (List.mem_singleton.mp isLF)
        · exact .inr (.inl inSeparate)
      · exact .inr (.inr ⟨new, List.mem_cons_self, inNew⟩)
    · exact .inr (.inr ⟨other, List.mem_cons_of_mem _ inRest, inOther⟩)

theorem IniEntry.Plain.noNul {entry : IniEntry} (plain : entry.Plain) : 0 ∉ entry.text := by
  cases entry with
  | keyValue label value span => exact (keyValue_clean plain.1 plain.2.1 plain.2.2).2
  | div label => exact plain.2.2.1

theorem dumpString_noNul {document : IniDocument} (plain : document.Plain) :
    0 ∉ dumpString document := by
  rw [dumpString_eq]
  intro listed
  rcases mem_foldl_emit listed with isLF | nothing | ⟨new, inTexts, inNew⟩
  · exact absurd isLF (by decide)
  · cases nothing
  · obtain ⟨child, inChildren, inChild⟩ := List.mem_flatMap.mp inTexts
    have plainChild := plain child inChildren
    cases child with
    | entry node =>
      cases List.mem_singleton.mp inChild
      exact IniEntry.Plain.noNul plainChild inNew
    | scope node =>
      rcases List.mem_cons.mp inChild with rfl | inEntries
      · exact (scope_clean plainChild).2 inNew
      · obtain ⟨entry, inNode, rfl⟩ := List.mem_map.mp inEntries
        exact (plainChild.children entry inNode).noNul inNew

/-- The lines of the whole behind nothing. -/
theorem dumpString_reloaded {document : IniDocument} (plain : document.Plain) :
    dumpString (loadDocument (dumpString document)) = dumpString document := by
  have folded (children : List IniChild) (plain : ∀ child ∈ children, child.Plain) (load : IniLoad)
      (ended : LineEnded load.strDiv) :
      (((children.flatMap IniChild.texts).flatMap getlines).foldl IniLoad.addLine load).dumped =
        (children.flatMap IniChild.texts).foldl emit load.dumped := by
    induction children generalizing load with
    | nil => rfl
    | cons child rest inductionHypothesis =>
      obtain ⟨dumped, endedNext⟩ := load.dumped_child ended (plain child List.mem_cons_self)
      rw [List.flatMap_cons, List.flatMap_append, List.foldl_append, List.foldl_append,
        inductionHypothesis (fun other listed => plain other (List.mem_cons_of_mem _ listed)) _
          endedNext, dumped]
  rw [loadDocument, (takeWhile_eq_self (dumpString_noNul plain)).1, getlines_dumpString,
    dumpString_document, IniDocument.texts, folded _ plain _ (.inl rfl)]
  exact (dumpString_eq document).symm

end Netmt

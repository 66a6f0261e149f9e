/-
This file models `IniParser` with all that a file holds: the comments that
`LoadFromMem` keeps beside the pairs, `SetValue`, and the text that `DumpString`
makes of the tree.

The kinds of nodes that can stand below a node are types of their own. A comment
behind a section or a pair (`INI_NODE_TYPE_SPAN`) is added by the line that adds
the node, so it is the first child and there is at most one; the lines of a file
between two nodes are collected in one text (`INI_NODE_TYPE_DIV`). What `Ini.lean`
keeps of a file is a view of this tree.
-/
import Netmt.Ini
import Netmt.Lib.Trim

namespace Netmt

open CMem

/-! ### The tree -/

/-- A child of a section, or of the root that is no section. -/
inductive IniEntry where
  /-- `INI_NODE_TYPE_KEY_VALUE`. -/
  | keyValue (label value : List UInt8) (span : Option (List UInt8))
  /-- `INI_NODE_TYPE_DIV`. -/
  | div (label : List UInt8)
  deriving DecidableEq, Repr

/-- `INI_NODE_TYPE_SECTION`. -/
structure IniScope where
  label : List UInt8
  span : Option (List UInt8)
  children : List IniEntry
  deriving DecidableEq, Repr

/-- A child of the root. -/
inductive IniChild where
  | entry (entry : IniEntry)
  | scope (scope : IniScope)
  deriving DecidableEq, Repr

/-- `root_`. -/
structure IniDocument where
  children : List IniChild
  deriving DecidableEq, Repr

/-! ### Loading -/

/-- What `LoadFromMem` has read. The root gets no entry while a section is open, so its children
are kept in two parts; the newest section, which is `pScopeNode`, comes first. -/
structure IniLoad where
  own : List IniEntry
  scopes : List IniScope
  strDiv : List UInt8

/-- `pScopeNode->Add(pNode)`. -/
def IniLoad.add (load : IniLoad) (entry : IniEntry) : IniLoad :=
  match load.scopes with
  | [] => { load with own := load.own ++ [entry] }
  | scope :: older =>
    { load with scopes := { scope with children := scope.children ++ [entry] } :: older }

/-- `else if (strDiv.length() != 0)`. -/
def IniLoad.flush (load : IniLoad) : IniLoad :=
  if load.strDiv = [] then load else { load.add (.div load.strDiv) with strDiv := [] }

/-- `if (comment.length() != 0)`. -/
def iniSpan (comment : List UInt8) : Option (List UInt8) :=
  if comment = [] then none else some comment

/-- A line with a content, which is what stands before the comment. A line that opens a bracket
and does not end with one is ignored, with its comment. -/
def IniLoad.addContent (load : IniLoad) (content comment : List UInt8) : IniLoad :=
  if content.head? = some 91 then
    if content.getLast? = some 93 then
      { load with scopes :=
          { label := trim ((content.drop 1).take (content.length - 2))
            span := iniSpan comment
            children := [] } :: load.scopes }
    else load
  else if iniDelim ∈ content then
    load.add (.keyValue (trim (content.takeWhile (· ≠ iniDelim)))
      (trim ((content.dropWhile (· ≠ iniDelim)).drop 1)) (iniSpan comment))
  else load

/-- A line of the file. -/
def IniLoad.addLine (load : IniLoad) (strLine : List UInt8) : IniLoad :=
  if trimL strLine = [] then
    { load with strDiv := load.strDiv ++ [LF] }
  else if iniContent strLine = [] then
    { load with strDiv := load.strDiv ++ strLine ++ [LF] }
  else
    load.flush.addContent (iniContent strLine) ((trimL strLine).dropWhile (· ≠ iniComment))

/-- The tree at the end of the file: the last comment is a child of the root. -/
def IniLoad.document (load : IniLoad) : IniDocument where
  children := load.own.map .entry ++ load.scopes.reverse.map .scope ++
    if load.strDiv = [] then [] else [.entry (.div load.strDiv)]

/-- `LoadFromMem`; its argument is a C string. -/
def loadDocument (data : List UInt8) : IniDocument :=
  ((getlines (data.takeWhile (· ≠ 0))).foldl IniLoad.addLine ⟨[], [], []⟩).document

/-! ### Dumping -/

/-- The line end that `DumpString` puts in front of every node that is no comment of a node. -/
def separate (str : List UInt8) : List UInt8 :=
  if str ≠ [] ∧ str.getLast? ≠ some LF then str ++ [LF] else str

/-- `INI_NODE_TYPE_SPAN`. -/
def dumpSpan : Option (List UInt8) → List UInt8
  | none => []
  | some label => 9 :: label

/-- A child of a section. `asprintf` takes its arguments as C strings. -/
def dumpEntry (str : List UInt8) : IniEntry → List UInt8
  | .keyValue label value span =>
    separate str ++ (label.takeWhile (· ≠ 0) ++ [32, iniDelim, 32] ++ value.takeWhile (· ≠ 0)) ++
      dumpSpan span
  | .div label => separate str ++ label

/-- `INI_NODE_TYPE_SECTION`, with its children. -/
def dumpScope (str : List UInt8) (scope : IniScope) : List UInt8 :=
  scope.children.foldl dumpEntry (separate str ++ ([91] ++ scope.label ++ [93]) ++
    dumpSpan scope.span)

/-- A child of the root. -/
def dumpChild (str : List UInt8) : IniChild → List UInt8
  | .entry entry => dumpEntry str entry
  | .scope scope => dumpScope str scope

/-- `DumpString`. -/
def dumpString (document : IniDocument) : List UInt8 := document.children.foldl dumpChild []

/-! ### Looking up and setting -/

/-- `IniNode::Get` of a key. -/
def findValue (key : List UInt8) (entries : List IniEntry) : Option (List UInt8) :=
  entries.findSome? fun
    | .keyValue label value _ => if label = key then some value else none
    | .div _ => none

/-- The children of the root that are no sections. -/
def IniDocument.own (document : IniDocument) : List IniEntry :=
  document.children.filterMap fun
    | .entry entry => some entry
    | .scope _ => none

/-- The sections, in the order of the file. -/
def IniDocument.scopes (document : IniDocument) : List IniScope :=
  document.children.filterMap fun
    | .entry _ => none
    | .scope scope => some scope

/-- `GetValue`. -/
def IniDocument.getValue (document : IniDocument) (key inSection : List UInt8) : List UInt8 :=
  let entries :=
    if inSection = [] then some document.own
    else (document.scopes.find? (·.label = inSection)).map IniScope.children
  match entries with
  | none => []
  | some entries => (findValue key entries).getD []

/-- The end of `SetValue`, below a section. -/
def setEntry (key value : List UInt8) : List IniEntry → List IniEntry
  | [] => [.keyValue key value none]
  | .div label :: rest => .div label :: setEntry key value rest
  | .keyValue label old span :: rest =>
    if label = key then .keyValue label value span :: rest
    else .keyValue label old span :: setEntry key value rest

/-- `SetValue` with an empty section: the key is one of the root's own. -/
def setOwn (key value : List UInt8) : List IniChild → List IniChild
  | [] => [.entry (.keyValue key value none)]
  | .entry (.keyValue label old span) :: rest =>
    if label = key then .entry (.keyValue label value span) :: rest
    else .entry (.keyValue label old span) :: setOwn key value rest
  | child :: rest => child :: setOwn key value rest

/-- `SetValue` with a section; a section that is not there is added. -/
def setScoped (key value inSection : List UInt8) : List IniChild → List IniChild
  | [] => [.scope ⟨inSection, none, setEntry key value []⟩]
  | .scope scope :: rest =>
    if scope.label = inSection then
      .scope { scope with children := setEntry key value scope.children } :: rest
    else .scope scope :: setScoped key value inSection rest
  | child :: rest => child :: setScoped key value inSection rest

/-- `SetValue`, after a file was loaded. -/
def IniDocument.setValue (document : IniDocument) (key value inSection : List UInt8) :
    IniDocument where
  children :=
    if inSection = [] then setOwn key value document.children
    else setScoped key value inSection document.children

example : dumpString ((loadDocument (text "# a\nk=1 # b\n[ s ]\nx\n")).setValue (text "k")
    (text "2") (text "s")) = text "# a\nk = 1\t# b\n[s]\nk = 2" := by decide

/-! ### The view by key -/

/-- The pairs among the children of a section. -/
def pairsOf (entries : List IniEntry) : List IniKeyValue :=
  entries.filterMap fun
    | .keyValue label value _ => some ⟨label, value⟩
    | .div _ => none

/-- A section without its comments. -/
def IniScope.view (scope : IniScope) : IniSection := ⟨scope.label, pairsOf scope.children⟩

/-- The tree without its comments. -/
def IniDocument.view (document : IniDocument) : IniNode where
  children := pairsOf document.own
  sections := (document.scopes.map IniScope.view).reverse

/-- What was read so far without its comments. -/
def IniLoad.view (load : IniLoad) : IniNode where
  children := pairsOf load.own
  sections := load.scopes.map IniScope.view

theorem pairsOf_append (entries more : List IniEntry) :
    pairsOf (entries ++ more) = pairsOf entries ++ pairsOf more := List.filterMap_append

theorem IniLoad.add_keyValue_view (load : IniLoad) (label value : List UInt8)
    (span : Option (List UInt8)) :
    (load.add (.keyValue label value span)).view = load.view.add ⟨label, value⟩ := by
  unfold IniLoad.add IniNode.add IniLoad.view
  cases load.scopes with
  | nil => simp [pairsOf]
  | cons scope older => simp [IniScope.view, pairsOf]

theorem IniLoad.flush_view (load : IniLoad) : load.flush.view = load.view := by
  unfold IniLoad.flush IniLoad.add IniLoad.view
  split
  · rfl
  · cases load.scopes with
    | nil => simp [pairsOf]
    | cons scope older => simp [IniScope.view, pairsOf]

theorem IniLoad.addContent_view (load : IniLoad) (first : UInt8) (rest comment : List UInt8) :
    (load.addContent (first :: rest) comment).view =
      if first = 91 then
        if (first :: rest).getLast? = some 93 then
          { load.view with sections := ⟨trim rest.dropLast, []⟩ :: load.view.sections }
        else load.view
      else if iniDelim ∈ first :: rest then
        load.view.add
          { label := trim ((first :: rest).takeWhile (· ≠ iniDelim))
            value := trim (((first :: rest).dropWhile (· ≠ iniDelim)).drop 1) }
      else load.view := by
  have inside : ((first :: rest).drop 1).take ((first :: rest).length - 2) = rest.dropLast := by
    rw [List.dropLast_eq_take]
    rfl
  unfold IniLoad.addContent
  simp only [List.head?_cons, Option.some.injEq, inside]
  split_ifs with opens closes
  · rfl
  · rfl
  · exact load.add_keyValue_view _ _ _
  · rfl

theorem IniLoad.addLine_view (load : IniLoad) (strLine : List UInt8) :
    (load.addLine strLine).view = load.view.addLine strLine := by
  unfold IniLoad.addLine IniNode.addLine
  by_cases blank : trimL strLine = []
  · have nothing : iniContent strLine = [] := by
      rw [iniContent, blank]
      rfl
    rw [if_pos blank, nothing]
    rfl
  · rw [if_neg blank]
    cases content : iniContent strLine with
    | nil =>
      rw [if_pos rfl]
      rfl
    | cons first rest => rw [if_neg (List.cons_ne_nil _ _), addContent_view, load.flush_view]

theorem IniLoad.document_own (load : IniLoad) :
    load.document.own = load.own ++ if load.strDiv = [] then [] else [.div load.strDiv] := by
  unfold IniLoad.document IniDocument.own
  rw [List.filterMap_append, List.filterMap_append, List.filterMap_map, List.filterMap_map]
  split <;> simp

theorem IniLoad.document_scopes (load : IniLoad) :
    load.document.scopes = load.scopes.reverse := by
  unfold IniLoad.document IniDocument.scopes
  split <;> simp [List.filterMap_append, List.filterMap_map]

theorem IniLoad.document_view (load : IniLoad) : load.document.view = load.view := by
  unfold IniDocument.view IniLoad.view
  rw [load.document_own, load.document_scopes, pairsOf_append, List.map_reverse,
    List.reverse_reverse]
  split <;> simp [pairsOf]

/-- The tree that is read by key is the view of the whole one. -/
theorem loadDocument_view (data : List UInt8) : (loadDocument data).view = loadFromMem data := by
  have folded (lines : List (List UInt8)) (load : IniLoad) :
      (lines.foldl IniLoad.addLine load).view = lines.foldl IniNode.addLine load.view := by
    induction lines generalizing load with
    | nil => rfl
    | cons line rest inductionHypothesis =>
      rw [List.foldl_cons, List.foldl_cons, inductionHypothesis, load.addLine_view]
  rw [loadDocument, IniLoad.document_view, folded]
  rfl

theorem findValue_eq (key : List UInt8) (entries : List IniEntry) :
    findValue key entries = (getPair (pairsOf entries) key).map IniKeyValue.value := by
  induction entries with
  | nil => rfl
  | cons entry rest inductionHypothesis =>
    unfold findValue getPair pairsOf at *
    cases entry with
    | div label => exact inductionHypothesis
    | keyValue label value span =>
      rw [List.findSome?_cons, List.filterMap_cons]
      by_cases isKey : label = key
      · simp [isKey]
      · simpa [isKey] using inductionHypothesis

/-- A lookup sees the view only. -/
theorem IniDocument.getValue_eq (document : IniDocument) (key inSection : List UInt8) :
    document.getValue key inSection = Netmt.getValue (some document.view) key inSection := by
  unfold IniDocument.getValue Netmt.getValue IniDocument.view
  simp only [List.reverse_reverse]
  by_cases isRoot : inSection = []
  · rw [if_pos isRoot, if_pos isRoot]
    simp only [findValue_eq]
    cases getPair (pairsOf document.own) key <;> rfl
  · rw [if_neg isRoot, if_neg isRoot, List.find?_map]
    have same : document.scopes.find? ((fun scope => decide (scope.label = inSection)) ∘
        IniScope.view) = document.scopes.find? (·.label = inSection) := rfl
    rw [same]
    cases document.scopes.find? (·.label = inSection) with
    | none => rfl
    | some scope =>
      simp only [Option.map_some, IniScope.view, findValue_eq]
      cases getPair (pairsOf scope.children) key <;> rfl

/-! ### A lookup behind `SetValue` -/

theorem findValue_setEntry (key value other : List UInt8) (entries : List IniEntry) :
    findValue other (setEntry key value entries) =
      if other = key then some value else findValue other entries := by
  induction entries with
  | nil =>
    by_cases isKey : other = key
    · simp [setEntry, findValue, isKey]
    · simp [setEntry, findValue, isKey, Ne.symm isKey]
  | cons entry rest inductionHypothesis =>
    cases entry with
    | div label => exact inductionHypothesis
    | keyValue label old span =>
      rw [setEntry]
      by_cases isLabel : label = key
      · subst isLabel
        by_cases isKey : other = label
        · simp [findValue, isKey]
        · simp [findValue, isKey, Ne.symm isKey]
      · rw [if_neg isLabel]
        by_cases found : label = other
        · subst found
          simp [findValue, isLabel]
        · unfold findValue at inductionHypothesis ⊢
          simpa [found] using inductionHypothesis

theorem own_setOwn (key value : List UInt8) (children : List IniChild) :
    IniDocument.own ⟨setOwn key value children⟩ =
      setEntry key value (IniDocument.own ⟨children⟩) := by
  induction children with
  | nil => rfl
  | cons child rest inductionHypothesis =>
    cases child with
    | scope scope => exact inductionHypothesis
    | entry node =>
      cases node with
      | div label => exact congrArg (IniEntry.div label :: ·) inductionHypothesis
      | keyValue label old span =>
        show IniDocument.own ⟨setOwn key value (.entry (.keyValue label old span) :: rest)⟩ =
          setEntry key value (.keyValue label old span :: IniDocument.own ⟨rest⟩)
        rw [setOwn, setEntry]
        split
        · rfl
        · exact congrArg (IniEntry.keyValue label old span :: ·) inductionHypothesis

theorem scopes_setOwn (key value : List UInt8) (children : List IniChild) :
    IniDocument.scopes ⟨setOwn key value children⟩ = IniDocument.scopes ⟨children⟩ := by
  induction children with
  | nil => rfl
  | cons child rest inductionHypothesis =>
    cases child with
    | scope scope => exact congrArg (scope :: ·) inductionHypothesis
    | entry node =>
      cases node with
      | div label => exact inductionHypothesis
      | keyValue label old span =>
        rw [setOwn]
        split
        · rfl
        · exact inductionHypothesis

theorem own_setScoped (key value inSection : List UInt8) (children : List IniChild) :
    IniDocument.own ⟨setScoped key value inSection children⟩ = IniDocument.own ⟨children⟩ := by
  induction children with
  | nil => rfl
  | cons child rest inductionHypothesis =>
    cases child with
    | entry node => exact congrArg (node :: ·) inductionHypothesis
    | scope scope =>
      rw [setScoped]
      split
      · rfl
      · exact inductionHypothesis

/-- The children of the first section with a label. -/
def IniDocument.childrenIn (document : IniDocument) (inSection : List UInt8) :
    Option (List IniEntry) :=
  (document.scopes.find? (·.label = inSection)).map IniScope.children

theorem childrenIn_setScoped (key value inSection other : List UInt8)
    (children : List IniChild) :
    IniDocument.childrenIn ⟨setScoped key value inSection children⟩ other =
      if other = inSection then
        some (setEntry key value ((IniDocument.childrenIn ⟨children⟩ inSection).getD []))
      else IniDocument.childrenIn ⟨children⟩ other := by
  induction children with
  | nil =>
    by_cases same : other = inSection
    · simp [setScoped, IniDocument.childrenIn, IniDocument.scopes, same]
    · simp [setScoped, IniDocument.childrenIn, IniDocument.scopes, same, Ne.symm same]
  | cons child rest inductionHypothesis =>
    cases child with
    | entry node => exact inductionHypothesis
    | scope scope =>
      rw [setScoped]
      by_cases isScope : scope.label = inSection
      · rw [if_pos isScope]
        by_cases same : other = inSection
        · simp [IniDocument.childrenIn, IniDocument.scopes, isScope, same]
        · simp [IniDocument.childrenIn, IniDocument.scopes, isScope, same, Ne.symm same]
      · rw [if_neg isScope]
        unfold IniDocument.childrenIn IniDocument.scopes at inductionHypothesis ⊢
        by_cases found : scope.label = other
        · have different : other ≠ inSection := found ▸ isScope
          simp [found, different]
        · simpa [found, isScope] using inductionHypothesis

theorem IniDocument.getValue_own (document : IniDocument) (key : List UInt8) :
    document.getValue key [] = (findValue key document.own).getD [] := rfl

theorem IniDocument.getValue_childrenIn (document : IniDocument) (key : List UInt8)
    {inSection : List UInt8} (named : inSection ≠ []) :
    document.getValue key inSection =
      (findValue key ((document.childrenIn inSection).getD [])).getD [] := by
  unfold IniDocument.getValue
  rw [if_neg named, ← IniDocument.childrenIn]
  cases document.childrenIn inSection <;> rfl

/-- Setting a key changes what is found under this key and nothing else. -/
theorem IniDocument.getValue_setValue (document : IniDocument)
    (key value inSection other otherSection : List UInt8) :
    (document.setValue key value inSection).getValue other otherSection =
      if other = key ∧ otherSection = inSection then value
      else document.getValue other otherSection := by
  unfold IniDocument.setValue
  by_cases isRoot : inSection = []
  · subst isRoot
    rw [if_pos rfl]
    by_cases otherRoot : otherSection = []
    · subst otherRoot
      rw [getValue_own, getValue_own, own_setOwn, findValue_setEntry]
      by_cases isKey : other = key <;> simp [isKey]
    · rw [getValue_childrenIn _ _ otherRoot, getValue_childrenIn _ _ otherRoot, childrenIn,
        scopes_setOwn, if_neg fun both => otherRoot both.2]
      rfl
  · rw [if_neg isRoot]
    by_cases otherRoot : otherSection = []
    · subst otherRoot
      rw [getValue_own, getValue_own, own_setScoped, if_neg fun both => isRoot both.2.symm]
    · rw [getValue_childrenIn _ _ otherRoot, getValue_childrenIn _ _ otherRoot,
        childrenIn_setScoped]
      by_cases same : otherSection = inSection
      · subst same
        rw [if_pos rfl, Option.getD_some, findValue_setEntry]
        by_cases isKey : other = key <;> simp [isKey]
      · rw [if_neg same, if_neg fun both => same both.2]

end Netmt

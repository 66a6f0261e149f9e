/-
This file proves what holds of an INI document over any number of loads and edits.
Every document that is loaded can be written so that it is read back, and so can
one that was edited with texts a file can hold. Setting a key changes what a lookup
of that key finds and nothing else, and it stays so after the document is saved and
loaded again.
-/
import Netmt.IniSaved

namespace Netmt

open CMem Trim

/-! ### What is loaded can be saved -/

/-- What was read so far is made of plain nodes. -/
structure IniLoad.Plain (load : IniLoad) : Prop where
  own : ∀ entry ∈ load.own, entry.Plain
  scopes : ∀ scope ∈ load.scopes, scope.Plain
  strDiv : load.strDiv ≠ [] → IniEntry.Plain (.div load.strDiv)

theorem IniLoad.Plain.add {load : IniLoad} (plain : load.Plain) {entry : IniEntry}
    (new : entry.Plain) : (load.add entry).Plain := by
  have extended {entries : List IniEntry} (old : ∀ other ∈ entries, other.Plain) :
      ∀ other ∈ entries ++ [entry], other.Plain := fun other listed => by
    rcases List.mem_append.mp listed with inOld | isNew
    · exact old other inOld
    · exact List.mem_singleton.mp isNew ▸ new
  obtain ⟨own, scopes, strDiv⟩ := load
  cases scopes with
  | nil => exact ⟨extended plain.own, plain.scopes, plain.strDiv⟩
  | cons scope older =>
    refine ⟨plain.own, fun other listed => ?_, plain.strDiv⟩
    rcases List.mem_cons.mp listed with rfl | inOlder
    · have was := plain.scopes scope List.mem_cons_self
      exact ⟨was.label, was.span, extended was.children⟩
    · exact plain.scopes other (List.mem_cons_of_mem _ inOlder)

theorem IniLoad.Plain.flush {load : IniLoad} (plain : load.Plain) : load.flush.Plain := by
  unfold IniLoad.flush
  split
  · exact plain
  · rename_i waiting
    have added := plain.add (plain.strDiv waiting)
    exact ⟨added.own, added.scopes, fun nonempty => absurd rfl nonempty⟩

theorem getlines_concat_of_notMem {line : List UInt8} (oneLine : LF ∉ line) :
    getlines (line ++ [LF]) = [line] := by
  by_cases nothing : line = []
  · subst nothing
    rfl
  · rw [getlines_concat_LF nothing, getlines_of_notMem nothing oneLine]
    intro ended
    obtain ⟨front, rfl⟩ := List.getLast?_eq_some_iff.mp ended
    exact oneLine (List.mem_append_right _ (List.mem_singleton.mpr rfl))

/-- The comment in front of the next node gets another line. -/
theorem IniLoad.Plain.comment {load : IniLoad} (plain : load.Plain) {line : List UInt8}
    (oneLine : LF ∉ line) (noNul : 0 ∉ line) (isComment : CommentLine line) :
    IniLoad.Plain { load with strDiv := load.strDiv ++ line ++ [LF] } := by
  have before : LineEnded load.strDiv ∧ 0 ∉ load.strDiv ∧
      ∀ line ∈ getlines load.strDiv, CommentLine line := by
    by_cases nothing : load.strDiv = []
    · rw [nothing]
      exact ⟨.inl rfl, List.not_mem_nil, nofun⟩
    · exact (plain.strDiv nothing).2
  obtain ⟨ended, clean, comments⟩ := before
  refine ⟨plain.own, plain.scopes,
    fun _ => ⟨by simp, lineEnded_concat _, ?_, fun other listed => ?_⟩⟩
  · simp only [List.mem_append, not_or]
    exact ⟨⟨clean, noNul⟩, by decide⟩
  · have listed : other ∈ getlines (load.strDiv ++ (line ++ [LF])) := by
      rwa [← List.append_assoc]
    rw [ended.getlines_append, getlines_concat_of_notMem oneLine] at listed
    rcases List.mem_append.mp listed with old | isNew
    · exact comments other old
    · exact List.mem_singleton.mp isNew ▸ isComment

/-! ### The parts of a line -/

theorem mem_trim {str : List UInt8} {byte : UInt8} (listed : byte ∈ trim str) : byte ∈ str :=
  (List.dropWhile_sublist _).subset ((List.rdropWhile_prefix _ _).subset listed)

/-- What stands in a line without its comment. -/
structure Content (content : List UInt8) : Prop where
  oneLine : LF ∉ content
  noNul : 0 ∉ content
  uncommented : iniComment ∉ content
  bare : Bare isBlank content

/-- A part of a content without the blanks around it is plain. -/
theorem Content.part {content part : List UInt8} (isContent : Content content)
    (inside : ∀ byte ∈ part, byte ∈ content) : PlainText (trim part) :=
  ⟨fun listed => isContent.oneLine (inside _ (mem_trim listed)),
    fun listed => isContent.noNul (inside _ (mem_trim listed)),
    fun listed => isContent.uncommented (inside _ (mem_trim listed)), bare_trimmed part⟩

theorem notMem_takeWhile {str : List UInt8} (byte : UInt8) : byte ∉ str.takeWhile (· ≠ byte) :=
  fun listed => by
    have different := List.mem_takeWhile_imp listed
    simp at different

theorem content_of_line {line : List UInt8} (oneLine : LF ∉ line) (noNul : 0 ∉ line) :
    Content (iniContent line) := by
  have front : ∀ first ∈ ((trimL line).takeWhile (· ≠ iniComment)).head?,
      isBlank first = false := by
    intro first isFirst
    refine head_dropWhile line first ?_
    show first ∈ (trimL line).head?
    cases content : trimL line with
    | nil =>
      rw [content] at isFirst
      exact isFirst
    | cons head rest =>
      rw [content, List.takeWhile_cons] at isFirst
      split at isFirst
      · exact isFirst
      · cases isFirst
  have isTrimmed : iniContent line =
      trimmed isBlank ((trimL line).takeWhile (· ≠ iniComment)) := by
    rw [trimmed, dropWhile_of_head front]
    rfl
  have inside {byte : UInt8} (listed : byte ∈ iniContent line) :
      byte ∈ (trimL line).takeWhile (· ≠ iniComment) := (List.rdropWhile_prefix _ _).subset listed
  have inLine {byte : UInt8} (listed : byte ∈ iniContent line) : byte ∈ line :=
    (List.dropWhile_sublist _).subset ((List.takeWhile_sublist _).subset (inside listed))
  exact ⟨fun listed => oneLine (inLine listed), fun listed => noNul (inLine listed),
    fun listed => notMem_takeWhile iniComment (inside listed), isTrimmed ▸ bare_trimmed _⟩

theorem iniSpan_plain {line : List UInt8} (oneLine : LF ∉ line) (noNul : 0 ∉ line) :
    ∀ comment ∈ iniSpan ((trimL line).dropWhile (· ≠ iniComment)), PlainSpan comment := by
  intro comment isSpan
  unfold iniSpan at isSpan
  split at isSpan
  · cases isSpan
  · rename_i nonempty
    cases Option.mem_some_iff.mp isSpan
    have inLine {byte : UInt8} (listed : byte ∈ (trimL line).dropWhile (· ≠ iniComment)) :
        byte ∈ line :=
      (List.dropWhile_sublist _).subset ((List.dropWhile_sublist _).subset listed)
    refine ⟨?_, fun listed => oneLine (inLine listed), fun listed => noNul (inLine listed)⟩
    obtain ⟨first, rest, split⟩ := List.exists_cons_of_ne_nil nonempty
    have starts := List.head?_dropWhile_not (· ≠ iniComment) (trimL line)
    rw [split] at starts ⊢
    simpa using starts

theorem IniLoad.Plain.addContent {load : IniLoad} (plain : load.Plain)
    {content comment : List UInt8} (isContent : Content content)
    (span : ∀ span ∈ iniSpan comment, PlainSpan span) :
    (load.addContent content comment).Plain := by
  unfold IniLoad.addContent
  split
  · split
    · refine ⟨plain.own, fun scope listed => ?_, plain.strDiv⟩
      rcases List.mem_cons.mp listed with rfl | old
      · refine ⟨isContent.part fun byte inPart => ?_, span, nofun⟩
        exact List.mem_of_mem_drop (List.mem_of_mem_take inPart)
      · exact plain.scopes scope old
    · exact plain
  · rename_i noBracket
    split
    · refine plain.add ⟨⟨isContent.part fun byte inPart => ?_, fun isDelim => ?_, ?_⟩,
        isContent.part fun byte inPart => ?_, span⟩
      · exact (List.takeWhile_sublist _).subset inPart
      · exact notMem_takeWhile iniDelim (mem_trim isDelim)
      · -- The key starts as the line does.
        have starts (first : UInt8)
            (isFirst : (content.takeWhile (· ≠ iniDelim)).head? = some first) :
            content.head? = some first := by
          obtain ⟨rest, split⟩ := List.takeWhile_prefix (l := content) (· ≠ iniDelim)
          rw [← split, List.head?_append, isFirst]
          rfl
        rw [trim_eq, head?_trimmed fun first isFirst =>
          isContent.bare.head first (starts first isFirst)]
        exact fun isBracket => noBracket (starts 91 isBracket)
      · exact (List.dropWhile_sublist _).subset (List.mem_of_mem_drop inPart)
    · exact plain

theorem IniLoad.Plain.addLine {load : IniLoad} (plain : load.Plain) {line : List UInt8}
    (oneLine : LF ∉ line) (noNul : 0 ∉ line) : (load.addLine line).Plain := by
  unfold IniLoad.addLine
  split
  · have blank := plain.comment (show LF ∉ [] from List.not_mem_nil) List.not_mem_nil
      ⟨rfl, fun _ => rfl⟩
    rwa [List.append_nil] at blank
  · rename_i someText
    split
    · rename_i noContent
      exact plain.comment oneLine noNul ⟨noContent, fun nothing => absurd nothing someText⟩
    · exact plain.flush.addContent (content_of_line oneLine noNul)
        (iniSpan_plain oneLine noNul)

/-- Whatever a file holds, the document that is loaded from it can be saved. -/
theorem loadDocument_plain (data : List UInt8) : (loadDocument data).Plain := by
  have folded (lines : List (List UInt8)) (clean : ∀ line ∈ lines, LF ∉ line ∧ 0 ∉ line)
      (load : IniLoad) (plain : load.Plain) : (lines.foldl IniLoad.addLine load).Plain := by
    induction lines generalizing load with
    | nil => exact plain
    | cons line rest inductionHypothesis =>
      obtain ⟨oneLine, noNul⟩ := clean line List.mem_cons_self
      exact inductionHypothesis (fun other listed => clean other (List.mem_cons_of_mem _ listed)) _
        (plain.addLine oneLine noNul)
  have read : ((getlines (data.takeWhile (· ≠ 0))).foldl IniLoad.addLine ⟨[], [], []⟩).Plain := by
    refine folded _ (fun line listed => ?_) _ ⟨nofun, nofun, fun nonempty => absurd rfl nonempty⟩
    obtain ⟨oneLine, inside⟩ := mem_getlines listed
    exact ⟨oneLine, fun isNul => notMem_takeWhile 0 (inside 0 isNul)⟩
  rw [loadDocument]
  generalize (getlines (data.takeWhile (· ≠ 0))).foldl IniLoad.addLine ⟨[], [], []⟩ = load at read
  intro child listed
  rcases List.mem_append.mp listed with nodes | isDiv
  · rcases List.mem_append.mp nodes with inOwn | inScopes
    · obtain ⟨entry, own, rfl⟩ := List.mem_map.mp inOwn
      exact read.own entry own
    · obtain ⟨scope, opened, rfl⟩ := List.mem_map.mp inScopes
      exact read.scopes scope (List.mem_reverse.mp opened)
  · split at isDiv
    · cases isDiv
    · rename_i nonempty
      cases List.mem_singleton.mp isDiv
      exact read.strDiv nonempty

/-- Saving what was loaded from any file, and loading and saving it again, writes the same text.

The first save puts every line into one form and drops the lines that the parser ignores; from
then on a save changes nothing. -/
theorem dump_load_stable (data : List UInt8) :
    dumpString (loadDocument (dumpString (loadDocument data))) = dumpString (loadDocument data) :=
  dumpString_reloaded (loadDocument_plain data)

/-! ### What is loaded again -/

/-- A child of the root as it is read again: a pair goes to the section that is open. -/
def IniNode.reread (root : IniNode) : IniChild → IniNode
  | .entry node => (pairsOf [node]).foldl IniNode.add root
  | .scope node => { root with sections := node.view :: root.sections }

theorem IniLoad.view_comments (load : IniLoad) {lines : List (List UInt8)}
    (comments : ∀ line ∈ lines, CommentLine line) :
    (lines.foldl IniLoad.addLine load).view = load.view := by
  induction lines generalizing load with
  | nil => rfl
  | cons line rest inductionHypothesis =>
    rw [List.foldl_cons,
      inductionHypothesis _ fun other listed => comments other (List.mem_cons_of_mem _ listed),
      load.addLine_comment (comments line List.mem_cons_self)]
    rfl

theorem IniLoad.view_entry (load : IniLoad) {entry : IniEntry} (plain : entry.Plain) :
    ((getlines entry.text).foldl IniLoad.addLine load).view =
      (pairsOf [entry]).foldl IniNode.add load.view := by
  cases entry with
  | keyValue label value span =>
    obtain ⟨key, plainValue, comment⟩ := plain
    have nonempty : IniEntry.text (.keyValue label value span) ≠ [] := by simp [IniEntry.text]
    rw [getlines_of_notMem nonempty (keyValue_clean key plainValue comment).1, List.foldl_cons,
      List.foldl_nil, load.addLine_keyValue key plainValue comment, IniLoad.add_keyValue_view,
      load.flush_view]
    rfl
  | div label => exact load.view_comments plain.2.2.2

theorem IniLoad.view_entries (load : IniLoad) {entries : List IniEntry}
    (plain : ∀ entry ∈ entries, entry.Plain) :
    (((entries.map IniEntry.text).flatMap getlines).foldl IniLoad.addLine load).view =
      (pairsOf entries).foldl IniNode.add load.view := by
  induction entries generalizing load with
  | nil => rfl
  | cons entry rest inductionHypothesis =>
    rw [List.map_cons, List.flatMap_cons, List.foldl_append,
      inductionHypothesis _ fun other listed => plain other (List.mem_cons_of_mem _ listed),
      load.view_entry (plain entry List.mem_cons_self), ← List.foldl_append, ← pairsOf_append]
    rfl

theorem foldl_add_own (pairs children : List IniKeyValue) :
    pairs.foldl IniNode.add ⟨children, []⟩ = ⟨children ++ pairs, []⟩ := by
  induction pairs generalizing children with
  | nil => simp
  | cons pair rest inductionHypothesis =>
    rw [List.foldl_cons, show IniNode.add ⟨children, []⟩ pair = ⟨children ++ [pair], []⟩ from rfl,
      inductionHypothesis, List.append_assoc]
    rfl

theorem foldl_add_scope (pairs children : List IniKeyValue) (scope : IniSection)
    (older : List IniSection) :
    pairs.foldl IniNode.add ⟨children, scope :: older⟩ =
      ⟨children, { scope with children := scope.children ++ pairs } :: older⟩ := by
  induction pairs generalizing scope with
  | nil => simp
  | cons pair rest inductionHypothesis =>
    rw [List.foldl_cons, show IniNode.add ⟨children, scope :: older⟩ pair =
      ⟨children, { scope with children := scope.children ++ [pair] } :: older⟩ from rfl,
      inductionHypothesis]
    simp

theorem IniLoad.view_child (load : IniLoad) {child : IniChild} (plain : child.Plain) :
    ((child.texts.flatMap getlines).foldl IniLoad.addLine load).view = load.view.reread child := by
  cases child with
  | entry node =>
    have read : ((IniChild.texts (.entry node)).flatMap getlines).foldl IniLoad.addLine load =
        (getlines node.text).foldl IniLoad.addLine load := by
      simp [IniChild.texts]
    rw [read, load.view_entry plain]
    rfl
  | scope node =>
    have nonempty : node.text ≠ [] := by simp [IniScope.text]
    rw [IniChild.texts, List.flatMap_cons, List.foldl_append,
      getlines_of_notMem nonempty (scope_clean plain).1, List.foldl_cons, List.foldl_nil,
      load.addLine_scope plain.label plain.span, IniLoad.view_entries _ plain.children]
    have opened : IniLoad.view { load.flush with
        scopes := ⟨node.label, node.span, []⟩ :: load.flush.scopes } =
        ⟨load.view.children, ⟨node.label, []⟩ :: load.view.sections⟩ := by
      rw [← load.flush_view]
      rfl
    rw [opened, foldl_add_scope]
    rfl

/-- The view of a document after it was saved and loaded. -/
theorem view_reloaded {document : IniDocument} (plain : document.Plain) :
    (loadDocument (dumpString document)).view =
      document.children.foldl IniNode.reread ⟨[], []⟩ := by
  have folded (children : List IniChild) (plain : ∀ child ∈ children, child.Plain)
      (load : IniLoad) :
      (((children.flatMap IniChild.texts).flatMap getlines).foldl IniLoad.addLine load).view =
        children.foldl IniNode.reread load.view := by
    induction children generalizing load with
    | nil => rfl
    | cons child rest inductionHypothesis =>
      rw [List.flatMap_cons, List.flatMap_append, List.foldl_append, List.foldl_cons,
        inductionHypothesis fun other listed => plain other (List.mem_cons_of_mem _ listed),
        load.view_child (plain child List.mem_cons_self)]
  rw [loadDocument, (takeWhile_eq_self (dumpString_noNul plain)).1, getlines_dumpString,
    IniLoad.document_view, IniDocument.texts, folded _ plain]
  rfl

/-! ### Documents with the pairs of the root first -/

/-- A child that holds no pair of the root. -/
def IniChild.NoPair : IniChild → Prop
  | .entry node => pairsOf [node] = []
  | .scope _ => True

/-- The root's own pairs stand before the sections. -/
def IniDocument.Ordered (document : IniDocument) : Prop :=
  ∃ (own : List IniEntry) (behind : List IniChild),
    document.children = own.map .entry ++ behind ∧ ∀ child ∈ behind, child.NoPair

theorem own_append (front back : List IniChild) :
    IniDocument.own ⟨front ++ back⟩ = IniDocument.own ⟨front⟩ ++ IniDocument.own ⟨back⟩ :=
  List.filterMap_append

theorem scopes_append (front back : List IniChild) :
    IniDocument.scopes ⟨front ++ back⟩ = IniDocument.scopes ⟨front⟩ ++ IniDocument.scopes ⟨back⟩ :=
  List.filterMap_append

theorem own_entries (entries : List IniEntry) :
    IniDocument.own ⟨entries.map .entry⟩ = entries := by
  simp [IniDocument.own, List.filterMap_map]

theorem scopes_entries (entries : List IniEntry) :
    IniDocument.scopes ⟨entries.map .entry⟩ = [] := by
  simp [IniDocument.scopes, List.filterMap_map]

theorem pairsOf_cons (entry : IniEntry) (rest : List IniEntry) :
    pairsOf (entry :: rest) = pairsOf [entry] ++ pairsOf rest := pairsOf_append [entry] rest

theorem pairsOf_own_behind {behind : List IniChild} (noPair : ∀ child ∈ behind, child.NoPair) :
    pairsOf (IniDocument.own ⟨behind⟩) = [] := by
  induction behind with
  | nil => rfl
  | cons child rest inductionHypothesis =>
    have others := inductionHypothesis fun other listed =>
      noPair other (List.mem_cons_of_mem _ listed)
    cases child with
    | entry node =>
      have none : pairsOf [node] = [] := noPair _ List.mem_cons_self
      show pairsOf (node :: IniDocument.own ⟨rest⟩) = []
      rw [pairsOf_cons, none, others]
      rfl
    | scope node => exact others

theorem foldl_reread_entries (entries : List IniEntry) (children : List IniKeyValue) :
    (entries.map IniChild.entry).foldl IniNode.reread ⟨children, []⟩ =
      ⟨children ++ pairsOf entries, []⟩ := by
  induction entries generalizing children with
  | nil => simp [pairsOf]
  | cons entry rest inductionHypothesis =>
    rw [List.map_cons, List.foldl_cons, IniNode.reread, foldl_add_own, inductionHypothesis,
      List.append_assoc, ← pairsOf_cons]

theorem foldl_reread_behind {behind : List IniChild} (noPair : ∀ child ∈ behind, child.NoPair)
    (root : IniNode) :
    behind.foldl IniNode.reread root =
      { root with
        sections :=
          ((IniDocument.scopes ⟨behind⟩).map IniScope.view).reverse ++ root.sections } := by
  induction behind generalizing root with
  | nil => rfl
  | cons child rest inductionHypothesis =>
    rw [List.foldl_cons,
      inductionHypothesis fun other listed => noPair other (List.mem_cons_of_mem _ listed)]
    cases child with
    | entry node =>
      have none : pairsOf [node] = [] := noPair _ List.mem_cons_self
      rw [IniNode.reread, none]
      rfl
    | scope node => simp [IniNode.reread, IniDocument.scopes]

/-- A document with the pairs of the root first is read as it was written. -/
theorem IniDocument.Ordered.foldl_reread {document : IniDocument} (ordered : document.Ordered) :
    document.children.foldl IniNode.reread ⟨[], []⟩ = document.view := by
  obtain ⟨own, behind, split, noPair⟩ := ordered
  obtain rfl : document = ⟨own.map .entry ++ behind⟩ := congrArg IniDocument.mk split
  rw [List.foldl_append, foldl_reread_entries, foldl_reread_behind noPair, IniDocument.view,
    own_append, own_entries, scopes_append, scopes_entries, pairsOf_append,
    pairsOf_own_behind noPair]
  simp

theorem loadDocument_ordered (data : List UInt8) : (loadDocument data).Ordered := by
  rw [loadDocument]
  generalize (getlines (data.takeWhile (· ≠ 0))).foldl IniLoad.addLine ⟨[], [], []⟩ = load
  refine ⟨load.own, load.scopes.reverse.map .scope ++
    if load.strDiv = [] then [] else [.entry (.div load.strDiv)], ?_, ?_⟩
  · exact List.append_assoc _ _ _
  · intro child listed
    rcases List.mem_append.mp listed with inScopes | isDiv
    · obtain ⟨scope, -, rfl⟩ := List.mem_map.mp inScopes
      trivial
    · split at isDiv
      · cases isDiv
      · cases List.mem_singleton.mp isDiv
        rfl

/-! ### Setting a key -/

/-- The texts of a `SetValue` that a file can hold. -/
structure PlainSetting (key value inSection : List UInt8) : Prop where
  key : PlainKey key
  value : PlainText value
  inSection : PlainText inSection

theorem setEntry_plain {key value : List UInt8} (plainKey : PlainKey key)
    (plainValue : PlainText value) {entries : List IniEntry}
    (plain : ∀ entry ∈ entries, entry.Plain) :
    ∀ entry ∈ setEntry key value entries, entry.Plain := by
  induction entries with
  | nil =>
    intro entry listed
    cases List.mem_singleton.mp listed
    exact ⟨plainKey, plainValue, nofun⟩
  | cons first rest inductionHypothesis =>
    obtain ⟨plainFirst, plainRest⟩ := List.forall_mem_cons.mp plain
    have others := inductionHypothesis plainRest
    cases first with
    | div label => exact List.forall_mem_cons.mpr ⟨plainFirst, others⟩
    | keyValue label old span =>
      rw [setEntry]
      split
      · exact List.forall_mem_cons.mpr ⟨⟨plainFirst.1, plainValue, plainFirst.2.2⟩, plainRest⟩
      · exact List.forall_mem_cons.mpr ⟨plainFirst, others⟩

theorem setOwn_plain {key value : List UInt8} (plainKey : PlainKey key)
    (plainValue : PlainText value) {children : List IniChild}
    (plain : ∀ child ∈ children, child.Plain) :
    ∀ child ∈ setOwn key value children, child.Plain := by
  induction children with
  | nil =>
    intro child listed
    cases List.mem_singleton.mp listed
    exact ⟨plainKey, plainValue, nofun⟩
  | cons first rest inductionHypothesis =>
    obtain ⟨plainFirst, plainRest⟩ := List.forall_mem_cons.mp plain
    have others := inductionHypothesis plainRest
    cases first with
    | scope scope => exact List.forall_mem_cons.mpr ⟨plainFirst, others⟩
    | entry node =>
      cases node with
      | div label => exact List.forall_mem_cons.mpr ⟨plainFirst, others⟩
      | keyValue label old span =>
        rw [setOwn]
        split
        · exact List.forall_mem_cons.mpr ⟨⟨plainFirst.1, plainValue, plainFirst.2.2⟩, plainRest⟩
        · exact List.forall_mem_cons.mpr ⟨plainFirst, others⟩

theorem setScoped_plain {key value inSection : List UInt8}
    (setting : PlainSetting key value inSection) {children : List IniChild}
    (plain : ∀ child ∈ children, child.Plain) :
    ∀ child ∈ setScoped key value inSection children, child.Plain := by
  induction children with
  | nil =>
    intro child listed
    cases List.mem_singleton.mp listed
    exact ⟨setting.inSection, nofun, setEntry_plain setting.key setting.value nofun⟩
  | cons first rest inductionHypothesis =>
    obtain ⟨plainFirst, plainRest⟩ := List.forall_mem_cons.mp plain
    have others := inductionHypothesis plainRest
    cases first with
    | entry node => exact List.forall_mem_cons.mpr ⟨plainFirst, others⟩
    | scope scope =>
      have plainScope : scope.Plain := plainFirst
      rw [setScoped]
      split
      · exact List.forall_mem_cons.mpr ⟨⟨plainScope.label, plainScope.span,
          setEntry_plain setting.key setting.value plainScope.children⟩, plainRest⟩
      · exact List.forall_mem_cons.mpr ⟨plainFirst, others⟩

theorem IniDocument.Plain.setValue {document : IniDocument} (plain : document.Plain)
    {key value inSection : List UInt8} (setting : PlainSetting key value inSection) :
    (document.setValue key value inSection).Plain := by
  unfold IniDocument.setValue IniDocument.Plain
  split
  · exact setOwn_plain setting.key setting.value plain
  · exact setScoped_plain setting plain

theorem setOwn_append {key : List UInt8} (value : List UInt8) {entries : List IniEntry}
    (found : findValue key entries ≠ none) (behind : List IniChild) :
    setOwn key value (entries.map .entry ++ behind) =
      (setEntry key value entries).map .entry ++ behind := by
  induction entries with
  | nil => exact absurd rfl found
  | cons first rest inductionHypothesis =>
    cases first with
    | div label => exact congrArg (IniChild.entry (.div label) :: ·) (inductionHypothesis found)
    | keyValue label old span =>
      rw [List.map_cons, List.cons_append, setOwn, setEntry]
      by_cases isKey : label = key
      · rw [if_pos isKey, if_pos isKey]
        rfl
      · rw [if_neg isKey, if_neg isKey, List.map_cons, List.cons_append, inductionHypothesis]
        simpa [findValue, isKey] using found

theorem setOwn_entries (key value : List UInt8) (entries : List IniEntry) :
    setOwn key value (entries.map .entry) = (setEntry key value entries).map .entry := by
  induction entries with
  | nil => rfl
  | cons first rest inductionHypothesis =>
    cases first with
    | div label => exact congrArg (IniChild.entry (.div label) :: ·) inductionHypothesis
    | keyValue label old span =>
      rw [List.map_cons, setOwn, setEntry]
      split
      · rfl
      · exact congrArg (IniChild.entry (.keyValue label old span) :: ·) inductionHypothesis

theorem setScoped_append (key value inSection : List UInt8) (entries : List IniEntry)
    (behind : List IniChild) :
    setScoped key value inSection (entries.map .entry ++ behind) =
      entries.map .entry ++ setScoped key value inSection behind := by
  induction entries with
  | nil => rfl
  | cons first rest inductionHypothesis =>
    exact congrArg (IniChild.entry first :: ·) inductionHypothesis

theorem setScoped_noPair (key value inSection : List UInt8) {behind : List IniChild}
    (noPair : ∀ child ∈ behind, child.NoPair) :
    ∀ child ∈ setScoped key value inSection behind, child.NoPair := by
  induction behind with
  | nil =>
    intro child listed
    cases List.mem_singleton.mp listed
    trivial
  | cons first rest inductionHypothesis =>
    obtain ⟨noFirst, noRest⟩ := List.forall_mem_cons.mp noPair
    cases first with
    | entry node => exact List.forall_mem_cons.mpr ⟨noFirst, inductionHypothesis noRest⟩
    | scope scope =>
      rw [setScoped]
      split
      · exact List.forall_mem_cons.mpr ⟨trivial, noRest⟩
      · exact List.forall_mem_cons.mpr ⟨trivial, inductionHypothesis noRest⟩

/-- A pair of the root can be set where it stands, or while there is no section. -/
def IniDocument.RootSettable (document : IniDocument) (key inSection : List UInt8) : Prop :=
  inSection = [] → findValue key document.own ≠ none ∨ document.scopes = []

theorem children_of_noScopes {children : List IniChild}
    (noScopes : IniDocument.scopes ⟨children⟩ = []) :
    children = (IniDocument.own ⟨children⟩).map .entry := by
  induction children with
  | nil => rfl
  | cons first rest inductionHypothesis =>
    cases first with
    | scope scope => cases noScopes
    | entry node => exact congrArg (IniChild.entry node :: ·) (inductionHypothesis noScopes)

theorem IniDocument.Ordered.setValue {document : IniDocument} (ordered : document.Ordered)
    {key inSection : List UInt8} (value : List UInt8)
    (settable : document.RootSettable key inSection) :
    (document.setValue key value inSection).Ordered := by
  unfold IniDocument.setValue
  split
  · rename_i isRoot
    rcases settable isRoot with found | noScopes
    · obtain ⟨own, behind, split, noPair⟩ := ordered
      obtain rfl : document = ⟨own.map .entry ++ behind⟩ := congrArg IniDocument.mk split
      refine ⟨setEntry key value own, behind, setOwn_append value ?_ behind, noPair⟩
      rwa [own_append, own_entries, findValue_eq, pairsOf_append, pairsOf_own_behind noPair,
        List.append_nil, ← findValue_eq] at found
    · refine ⟨setEntry key value document.own, [], ?_, nofun⟩
      show setOwn key value document.children = _
      rw [children_of_noScopes noScopes, setOwn_entries, List.append_nil]
  · obtain ⟨own, behind, split, noPair⟩ := ordered
    refine ⟨own, setScoped key value inSection behind, ?_, setScoped_noPair _ _ _ noPair⟩
    rw [← setScoped_append, split]

/-! ### Runs of loads and settings -/

/-- The documents that loads and settings make of any files. -/
inductive Edited : IniDocument → Prop
  | load (data : List UInt8) : Edited (loadDocument data)
  | set {document : IniDocument} {key value inSection : List UInt8} (before : Edited document)
      (setting : PlainSetting key value inSection)
      (settable : document.RootSettable key inSection) :
      Edited (document.setValue key value inSection)

theorem Edited.plain {document : IniDocument} (edited : Edited document) : document.Plain := by
  induction edited with
  | load data => exact loadDocument_plain data
  | set _ setting _ inductionHypothesis => exact inductionHypothesis.setValue setting

theorem Edited.ordered {document : IniDocument} (edited : Edited document) :
    document.Ordered := by
  induction edited with
  | load data => exact loadDocument_ordered data
  | set _ _ settable inductionHypothesis => exact inductionHypothesis.setValue _ settable

/-- Saving an edited document and loading it again keeps what every lookup finds. -/
theorem Edited.view_kept {document : IniDocument} (edited : Edited document) :
    (loadDocument (dumpString document)).view = document.view := by
  rw [view_reloaded edited.plain, edited.ordered.foldl_reread]

/-- After a save and a load the key that was set has its value and every other key its own.

The document is any that loads and settings make. The texts are ones a line can hold, and a key of
the root is there already or there is no section, since a new pair of the root is written behind
the last section. -/
theorem saved_lookup {document : IniDocument} (edited : Edited document)
    {key value inSection : List UInt8} (setting : PlainSetting key value inSection)
    (settable : document.RootSettable key inSection) (other otherSection : List UInt8) :
    (loadDocument (dumpString (document.setValue key value inSection))).getValue other
        otherSection =
      if other = key ∧ otherSection = inSection then value
      else document.getValue other otherSection := by
  rw [IniDocument.getValue_eq, (edited.set setting settable).view_kept, ← IniDocument.getValue_eq,
    IniDocument.getValue_setValue]

theorem saved_lookup_section :
    (loadDocument (dumpString ((loadDocument (text "[s]\nk = 1 # one\n")).setValue (text "k")
      (text "2") (text "s")))).getValue (text "k") (text "s") = text "2" :=
  saved_lookup (.load (text "[s]\nk = 1 # one\n"))
    (show PlainSetting (text "k") (text "2") (text "s") from
      ⟨⟨⟨by decide, by decide, by decide, bare_of_all (by decide)⟩, by decide, by decide⟩,
        ⟨by decide, by decide, by decide, bare_of_all (by decide)⟩,
        ⟨by decide, by decide, by decide, bare_of_all (by decide)⟩⟩)
    (fun isRoot => absurd isRoot (by decide)) (text "k") (text "s")

end Netmt

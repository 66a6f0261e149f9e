/-
This file models libhv's `IniParser`: the tree `LoadFromMem` builds from the
lines of a file, and the lookups in it.

The tree is read by key only, so its comment nodes are left out. A section opens
a scope that lasts to the next section, so the pairs of the root are those
before the first section, and a line adds to the newest section if there is one.
-/
import Netmt.Text

namespace Netmt

open CMem

/-- `IniKeyValue`. -/
structure IniKeyValue where
  label : List UInt8
  value : List UInt8
  deriving DecidableEq, Repr

/-- `IniSection`, with its children. -/
structure IniSection where
  label : List UInt8
  children : List IniKeyValue
  deriving DecidableEq, Repr

/-- `root_`. -/
structure IniNode where
  children : List IniKeyValue
  /-- The newest section first: it is `pScopeNode`. -/
  sections : List IniSection
  deriving DecidableEq, Repr

/-- `pScopeNode->Add(pNewNode)`. -/
def IniNode.add (root : IniNode) (pair : IniKeyValue) : IniNode :=
  match root.sections with
  | [] => { root with children := root.children ++ [pair] }
  | scope :: older =>
    { root with sections := { scope with children := scope.children ++ [pair] } :: older }

/-- `#`, the comment sign. -/
def iniComment : UInt8 := 35

/-- `=`, the delimiter. -/
def iniDelim : UInt8 := 61

/-- What a line is before its comment, without the blanks around it. -/
def iniContent (strLine : List UInt8) : List UInt8 :=
  trimR ((trimL strLine).takeWhile (· ≠ iniComment))

/-- A line of the file. One that begins with a bracket is a section, and is ignored when it does
not end with one. -/
def IniNode.addLine (root : IniNode) (strLine : List UInt8) : IniNode :=
  match iniContent strLine with
  | [] => root
  | first :: rest =>
    if first = 91 then
      if (first :: rest).getLast? = some 93 then
        { root with sections := { label := trim rest.dropLast, children := [] } :: root.sections }
      else root
    else if iniDelim ∈ first :: rest then
      root.add
        { label := trim ((first :: rest).takeWhile (· ≠ iniDelim))
          value := trim (((first :: rest).dropWhile (· ≠ iniDelim)).drop 1) }
    else root

/-- `LoadFromMem`; its argument is a C string. -/
def loadFromMem (data : List UInt8) : IniNode :=
  (getlines (data.takeWhile (· ≠ 0))).foldl IniNode.addLine { children := [], sections := [] }

/-- `ERR_OPEN_FILE`. -/
def errOpenFile : Int := 1030

/-- `LoadFromFile`: its result and the tree after it. No contents means that the file cannot be
opened. -/
def loadFromFile (root : Option IniNode) (contents : Option (List UInt8)) :
    Int × Option IniNode :=
  match contents with
  | none => (errOpenFile, root)
  | some data => (0, some (loadFromMem data))

/-- `IniNode::Get` of a key. -/
def getPair (children : List IniKeyValue) (key : List UInt8) : Option IniKeyValue :=
  children.find? (·.label = key)

/-- `GetValue`; without a section the key is one of the root's own. -/
def getValue (root : Option IniNode) (key : List UInt8) (inSection : List UInt8) : List UInt8 :=
  match root with
  | none => []
  | some node =>
    let scope :=
      if inSection = [] then some node.children
      else (node.sections.reverse.find? (·.label = inSection)).map IniSection.children
    match scope with
    | none => []
    | some children =>
      match getPair children key with
      | none => []
      | some pair => pair.value

/-- `Get<int>`. -/
def getInt (root : Option IniNode) (key : List UInt8) (inSection : List UInt8) (defvalue : Int) :
    Int :=
  let str := getValue root key inSection
  if str = [] then defvalue else atoi str

end Netmt

/-!
# Source/Structure — the structure tree of a source file

Declarations, calls and call arguments of a file, nested as in the text. `walk` lists the nodes with
an explicit stack; `preorder` is the same list by recursion on the tree.
-/

namespace SwiftStyle

/-- What a node of the structure tree stands for. -/
inductive NodeKind
  | file
  | protocol
  | classType
  | structType
  | enumType
  | extension
  | function
  | call
  | argument
  | other
deriving DecidableEq, Repr, Inhabited

namespace NodeKind

/-- Kinds that declare a nominal type, protocols included. -/
def isType : NodeKind → Bool
  | protocol | classType | structType | enumType => true
  | _ => false

/-- The word for a kind in configuration files. -/
def text : NodeKind → String
  | file => "file"
  | protocol => "protocol"
  | classType => "class"
  | structType => "struct"
  | enumType => "enum"
  | extension => "extension"
  | function => "function"
  | call => "call"
  | argument => "argument"
  | other => "other"

/-- All kinds. -/
def all : List NodeKind :=
  [file, protocol, classType, structType, enumType, extension, function, call, argument, other]

/-- The kind that a word stands for, letter case included. -/
def ofText? (word : String) : Option NodeKind := all.find? (·.text == word)

end NodeKind

/-- A node of the structure tree: a span of bytes with a kind, a name and what is nested in it. -/
inductive Node where
  | mk (kind : NodeKind) (name : Option String) (offset length : Nat) (children : List Node)
deriving Repr, Inhabited

namespace Node

/-- What the node stands for. -/
def kind : Node → NodeKind
  | mk kind _ _ _ _ => kind

/-- The declared or called name, or the label of an argument. -/
def name : Node → Option String
  | mk _ name _ _ _ => name

/-- Byte offset of the node in the contents. -/
def offset : Node → Nat
  | mk _ _ offset _ _ => offset

/-- Length of the node in bytes. -/
def length : Node → Nat
  | mk _ _ _ length _ => length

/-- Nested nodes, in the order of the text. -/
def children : Node → List Node
  | mk _ _ _ _ children => children

/-- A root node over `length` bytes. -/
def fileRoot (length : Nat) (children : List Node) : Node := mk .file none 0 length children

mutual

/-- Number of nodes of a tree. -/
def size : Node → Nat
  | mk _ _ _ _ children => 1 + sizeAll children

/-- Number of nodes of a list of trees. -/
def sizeAll : List Node → Nat
  | [] => 0
  | node :: rest => node.size + sizeAll rest

end

mutual

/-- The nodes of a tree in pre-order: a node, then what is nested in it from first to last. -/
def preorder : Node → List Node
  | mk kind name offset length children =>
      mk kind name offset length children :: preorderAll children

/-- The nodes of a list of trees in pre-order. -/
def preorderAll : List Node → List Node
  | [] => []
  | node :: rest => node.preorder ++ preorderAll rest

end

theorem sizeAll_append (a b : List Node) : sizeAll (a ++ b) = sizeAll a + sizeAll b := by
  induction a with
  | nil => simp [sizeAll]
  | cons node rest ih => simp [sizeAll, ih, Nat.add_assoc]

theorem size_eq (node : Node) : node.size = 1 + sizeAll node.children := by
  cases node; rw [size, children]

/-- Visit the top of the stack and put its children in its place, until the stack is empty. -/
def walkFrom : List Node → List Node
  | [] => []
  | node :: stack => node :: walkFrom (node.children ++ stack)
termination_by stack => sizeAll stack
decreasing_by simp [sizeAll, sizeAll_append, size_eq node]

/-- **The nodes of a tree in the order of a walk**, depth first and in the order of the text. -/
def walk (node : Node) : List Node := walkFrom [node]

end Node

end SwiftStyle

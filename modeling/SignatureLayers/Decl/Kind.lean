

namespace SignatureLayers

/-- Declarations that own other declarations. -/
inductive ContainerKind
  | classDecl | moduleDecl | interfaceDecl
deriving DecidableEq, Repr, Inhabited

/-- Declarations that own nothing. -/
inductive LeafKind
  | constant | global | typeAlias | classAlias | moduleAlias | useClause
deriving DecidableEq, Repr, Inhabited

/-- Members, which stand only inside a container. -/
inductive MemberKind
  | method
  | instanceVariable | classInstanceVariable | classVariable
  | includeMixin | extendMixin | prependMixin
  | attrReader | attrWriter | attrAccessor
  | publicMark | privateMark
  | methodAlias
deriving DecidableEq, Repr, Inhabited

inductive Kind
  | container (kind : ContainerKind)
  | leaf (kind : LeafKind)
  | member (kind : MemberKind)
deriving DecidableEq, Repr, Inhabited

def ContainerKind.label : ContainerKind → String
  | .classDecl => "class"
  | .moduleDecl => "module"
  | .interfaceDecl => "interface"

def LeafKind.label : LeafKind → String
  | .constant => "constant"
  | .global => "global"
  | .typeAlias => "type_alias"
  | .classAlias => "class_alias"
  | .moduleAlias => "module_alias"
  | .useClause => "use"

def MemberKind.label : MemberKind → String
  | .method => "method"
  | .instanceVariable => "instance_variable"
  | .classInstanceVariable => "class_instance_variable"
  | .classVariable => "class_variable"
  | .includeMixin => "include"
  | .extendMixin => "extend"
  | .prependMixin => "prepend"
  | .attrReader => "attr_reader"
  | .attrWriter => "attr_writer"
  | .attrAccessor => "attr_accessor"
  | .publicMark => "public"
  | .privateMark => "private"
  | .methodAlias => "alias"

namespace Kind

def label : Kind → String
  | .container k => k.label
  | .leaf k => k.label
  | .member k => k.label

def all : List Kind :=
  [.classDecl, .moduleDecl, .interfaceDecl].map .container ++
  [.constant, .global, .typeAlias, .classAlias, .moduleAlias, .useClause].map .leaf ++
  [.method, .instanceVariable, .classInstanceVariable, .classVariable, .includeMixin,
    .extendMixin, .prependMixin, .attrReader, .attrWriter, .attrAccessor, .publicMark,
    .privateMark, .methodAlias].map .member

def ofLabel? (label : String) : Option Kind := all.find? (·.label == label)

def isMember : Kind → Bool
  | .member _ => true
  | _ => false

/-- Instance variables, class variables and class-instance variables. -/
def isVariable : Kind → Bool
  | .member .instanceVariable | .member .classInstanceVariable | .member .classVariable => true
  | _ => false

def isVisibility : Kind → Bool
  | .member .publicMark | .member .privateMark => true
  | _ => false

theorem ofLabel?_label (k : Kind) : ofLabel? k.label = some k := by
  rcases k with (_ | _ | _) | (_ | _ | _ | _ | _ | _) |
    (_ | _ | _ | _ | _ | _ | _ | _ | _ | _ | _ | _ | _) <;> decide

end Kind
end SignatureLayers

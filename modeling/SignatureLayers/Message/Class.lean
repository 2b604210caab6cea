

namespace SignatureLayers.Message

/-- The classes of parts. Besides those of texts and numbers these are the ones of what is known
about a part: of classes, of their members, and of what the members tell. -/
inductive Class
  | text
  | number
  | truth
  | object
  | metaclass
  | row
  | absence
  | routine
  | boundOperator
  | method
  | operator
  | property
  | field
  | classMethod
  | staticMethod
  | listing
  | table
  | keyed
deriving DecidableEq, Repr, Inhabited

inductive Form
  /-- Makes a new part. -/
  | maker
  /-- Stands for a sign of an expression. -/
  | operator
  | method
  /-- A method of the class itself. -/
  | classMethod
  /-- A method of nothing. -/
  | staticMethod
  | property
  | field
  /-- What is to be read about the class. -/
  | about
  /-- Something that the class does not have, although the one above it has. -/
  | nothing
deriving DecidableEq, Repr, Inhabited

structure Member where
  form : Form
  name : String
deriving DecidableEq, Repr, Inhabited

structure Feature extends Member where
  home : Class
deriving DecidableEq, Repr, Inhabited

/-- The sizes of the parts of a class, its marks, and where a part keeps its table and its weak
references. -/
structure Measures where
  size : Nat
  itemSize : Nat
  marks : Nat
  table : Nat
  references : Nat
deriving DecidableEq, Repr, Inhabited

namespace Class

def name : Class → String
  | text => "str"
  | number => "int"
  | truth => "bool"
  | object => "object"
  | metaclass => "type"
  | row => "tuple"
  | absence => "NoneType"
  | routine => "builtin_function_or_method"
  | boundOperator => "method-wrapper"
  | method => "method_descriptor"
  | operator => "wrapper_descriptor"
  | property => "getset_descriptor"
  | field => "member_descriptor"
  | classMethod => "classmethod_descriptor"
  | staticMethod => "staticmethod"
  | listing => "mappingproxy"
  | table => "dict"
  | keyed => "GenericAlias"

def place (c : Class) : String := if c = keyed then "types" else "builtins"

def fullName (c : Class) : String := if c = keyed then c.place ++ "." ++ c.name else c.name

def shown (c : Class) : String := s!"<class '{c.fullName}'>"

def lineage : Class → List Class
  | object => [object]
  | truth => [truth, number, object]
  | c => [c, object]

def takesKeys (c : Class) : Bool := c = metaclass || c = row || c = listing || c = table

def measures : Class → Measures
  | text => ⟨80, 0, 273159424, 0, 0⟩
  | number => ⟨24, 4, 21501184, 0, 0⟩
  | truth => ⟨32, 4, 21500160, 0, 0⟩
  | object => ⟨16, 0, 529664, 0, 0⟩
  | metaclass => ⟨904, 40, 2148031744, 264, 368⟩
  | row => ⟨24, 8, 71849248, 0, 0⟩
  | absence => ⟨16, 0, 528640, 0, 0⟩
  | routine => ⟨56, 0, 547200, 0, 40⟩
  | boundOperator => ⟨32, 0, 545152, 0, 0⟩
  | method => ⟨56, 0, 678272, 0, 0⟩
  | operator => ⟨56, 0, 676224, 0, 0⟩
  | property => ⟨48, 0, 545152, 0, 0⟩
  | field => ⟨48, 0, 545152, 0, 0⟩
  | classMethod => ⟨56, 0, 545152, 0, 0⟩
  | staticMethod => ⟨32, 0, 546048, 24, 0⟩
  | listing => ⟨24, 0, 545088, 0, 0⟩
  | table => ⟨48, 0, 541611328, 0, 0⟩
  | keyed => ⟨64, 0, 548096, 0, 40⟩

def group (form : Form) (names : String) : List Member :=
  (names.splitOn " ").map fun n => ⟨form, n⟩

def members : Class → List Member
  | text =>
    group .maker "__new__" ++
    group .operator "__repr__ __hash__ __str__ __getattribute__ __lt__ __le__ __eq__ __ne__" ++
    group .operator "__gt__ __ge__ __iter__ __mod__ __rmod__ __len__ __getitem__ __add__ __mul__" ++
    group .operator "__rmul__ __contains__" ++
    group .method "encode replace split rsplit join capitalize casefold title center count" ++
    group .method "expandtabs find partition index ljust lower lstrip rfind rindex rjust rstrip" ++
    group .method "rpartition splitlines strip swapcase translate upper startswith endswith" ++
    group .method "removeprefix removesuffix isascii islower isupper istitle isspace isdecimal" ++
    group .method "isdigit isnumeric isalpha isalnum isidentifier isprintable zfill format" ++
    group .method "format_map __format__" ++
    group .staticMethod "maketrans" ++
    group .method "__sizeof__ __getnewargs__" ++
    group .about "__doc__"
  | number =>
    group .maker "__new__" ++
    group .operator "__repr__ __hash__ __getattribute__ __lt__ __le__ __eq__ __ne__ __gt__" ++
    group .operator "__ge__ __add__ __radd__ __sub__ __rsub__ __mul__ __rmul__ __mod__ __rmod__" ++
    group .operator "__divmod__ __rdivmod__ __pow__ __rpow__ __neg__ __pos__ __abs__ __bool__" ++
    group .operator "__invert__ __lshift__ __rlshift__ __rshift__ __rrshift__ __and__ __rand__" ++
    group .operator "__xor__ __rxor__ __or__ __ror__ __int__ __float__ __floordiv__" ++
    group .operator "__rfloordiv__ __truediv__ __rtruediv__ __index__" ++
    group .method "conjugate bit_length bit_count to_bytes" ++
    group .classMethod "from_bytes" ++
    group .method "as_integer_ratio __trunc__ __floor__ __ceil__ __round__ __getnewargs__" ++
    group .method "__format__ __sizeof__" ++
    group .property "real imag numerator denominator" ++
    group .about "__doc__"
  | truth =>
    group .maker "__new__" ++
    group .operator "__repr__ __and__ __rand__ __xor__ __rxor__ __or__ __ror__" ++
    group .about "__doc__"
  | object =>
    group .maker "__new__" ++
    group .operator "__repr__ __hash__ __str__ __getattribute__ __setattr__ __delattr__ __lt__" ++
    group .operator "__le__ __eq__ __ne__ __gt__ __ge__ __init__" ++
    group .method "__reduce_ex__ __reduce__ __getstate__" ++
    group .classMethod "__subclasshook__ __init_subclass__" ++
    group .method "__format__ __sizeof__ __dir__" ++
    group .property "__class__" ++
    group .about "__doc__"
  | metaclass =>
    group .maker "__new__" ++
    group .operator
      "__repr__ __call__ __getattribute__ __setattr__ __delattr__ __init__ __or__ __ror__" ++
    group .method "mro __subclasses__" ++
    group .classMethod "__prepare__" ++
    group .method "__instancecheck__ __subclasscheck__ __dir__ __sizeof__" ++
    group .field
      "__basicsize__ __itemsize__ __flags__ __weakrefoffset__ __base__ __dictoffset__ __mro__" ++
    group .property "__name__ __qualname__ __bases__ __module__ __abstractmethods__ __dict__" ++
    group .property "__doc__ __text_signature__ __annotations__"
  | row =>
    group .maker "__new__" ++
    group .operator "__repr__ __hash__ __getattribute__ __lt__ __le__ __eq__ __ne__ __gt__" ++
    group .operator "__ge__ __iter__ __len__ __getitem__ __add__ __mul__ __rmul__ __contains__" ++
    group .method "__getnewargs__ index count" ++
    group .classMethod "__class_getitem__" ++
    group .about "__doc__"
  | absence =>
    group .maker "__new__" ++
    group .operator "__repr__ __bool__" ++
    group .nothing "__doc__"
  | routine =>
    group .operator
      "__repr__ __hash__ __call__ __getattribute__ __lt__ __le__ __eq__ __ne__ __gt__ __ge__" ++
    group .method "__reduce__" ++
    group .field "__module__" ++
    group .property "__doc__ __name__ __qualname__ __self__ __text_signature__"
  | boundOperator =>
    group .operator
      "__repr__ __hash__ __call__ __getattribute__ __lt__ __le__ __eq__ __ne__ __gt__ __ge__" ++
    group .method "__reduce__" ++
    group .field "__self__" ++
    group .property "__objclass__ __name__ __qualname__ __doc__ __text_signature__"
  | method =>
    group .operator "__repr__ __call__ __getattribute__ __get__" ++
    group .method "__reduce__" ++
    group .field "__objclass__ __name__" ++
    group .property "__doc__ __qualname__ __text_signature__"
  | operator =>
    group .operator "__repr__ __call__ __getattribute__ __get__" ++
    group .method "__reduce__" ++
    group .field "__objclass__ __name__" ++
    group .property "__doc__ __qualname__ __text_signature__"
  | property =>
    group .operator "__repr__ __getattribute__ __get__ __set__ __delete__" ++
    group .field "__objclass__ __name__" ++
    group .property "__doc__ __qualname__"
  | field =>
    group .operator "__repr__ __getattribute__ __get__ __set__ __delete__" ++
    group .method "__reduce__" ++
    group .field "__objclass__ __name__" ++
    group .property "__doc__ __qualname__"
  | classMethod =>
    group .operator "__repr__ __call__ __getattribute__ __get__" ++
    group .field "__objclass__ __name__" ++
    group .property "__doc__ __qualname__ __text_signature__"
  | staticMethod =>
    group .maker "__new__" ++
    group .operator "__repr__ __call__ __get__ __init__" ++
    group .field "__func__ __wrapped__" ++
    group .property "__isabstractmethod__ __dict__" ++
    group .about "__doc__"
  | listing =>
    group .maker "__new__" ++
    group .operator "__repr__ __str__ __getattribute__ __lt__ __le__ __eq__ __ne__ __gt__ __ge__" ++
    group .operator "__iter__ __or__ __ror__ __ior__ __len__ __getitem__ __contains__" ++
    group .method "get keys values items copy" ++
    group .classMethod "__class_getitem__" ++
    group .method "__reversed__" ++
    group .nothing "__doc__ __hash__"
  | table =>
    group .maker "__new__" ++
    group .operator "__repr__" ++
    group .nothing "__hash__" ++
    group .operator "__getattribute__ __lt__ __le__ __eq__ __ne__ __gt__ __ge__ __iter__" ++
    group .operator "__init__ __or__ __ror__ __ior__ __len__" ++
    group .method "__getitem__" ++
    group .operator "__setitem__ __delitem__" ++
    group .method
      "__contains__ __sizeof__ get setdefault pop popitem keys items values update" ++
    group .classMethod "fromkeys" ++
    group .method "clear copy __reversed__" ++
    group .classMethod "__class_getitem__" ++
    group .about "__doc__"
  | keyed =>
    group .maker "__new__" ++
    group .operator "__repr__ __hash__ __call__ __getattribute__ __lt__ __le__ __eq__ __ne__" ++
    group .operator "__gt__ __ge__ __iter__ __or__ __ror__ __getitem__" ++
    group .method "__mro_entries__ __instancecheck__ __subclasscheck__ __reduce__ __dir__" ++
    group .field "__origin__ __args__ __unpacked__" ++
    group .property "__parameters__ __typing_unpacked_tuple_args__" ++
    group .about "__doc__"

def own? (c : Class) (name : String) : Option Feature :=
  (c.members.find? (·.name == name)).map fun m => ⟨m, c⟩

def feature? (c : Class) (name : String) : Option Feature := c.lineage.findSome? (·.own? name)

end Class

/-- Whether a member tells something of a part, and is not itself what a part has. -/
def Form.tells (f : Form) : Bool := f = .property || f = .field

end SignatureLayers.Message

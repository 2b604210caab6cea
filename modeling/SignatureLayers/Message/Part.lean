import SignatureLayers.Message.Layout
import SignatureLayers.Message.Manual
import SignatureLayers.Text.Quoted

namespace SignatureLayers

inductive Parameter
  | text (s : String)
  | number (n : Int)
deriving DecidableEq, Repr, Inhabited

abbrev Parameters := List (String × Parameter)

namespace Parameter

def shown : Parameter → String
  | text s => s
  | number n => toString n

/-- A parameter as it is shown inside something else. -/
def display : Parameter → String
  | text s => Text.Quoted.encode s
  | number n => toString n

end Parameter

namespace Message

open Text (CodePoint)

inductive Part
  | parameter (p : Parameter)
  | truth (b : Bool)
  | absent
  | ofClass (c : Class)
  | row (items : List (Class ⊕ Parameter))
  /-- The members of a class by their names. -/
  | listing (c : Class)
  | emptyTable
  /-- A feature on its own. -/
  | feature (f : Feature)
  /-- A feature of a certain part. -/
  | bound (f : Feature) (holder : Part)
  /-- A class with a key. -/
  | keyed (origin : Class) (key : Parameter)
deriving DecidableEq, Repr, Inhabited

namespace Part

def text (s : String) : Part := .parameter (.text s)

def number (n : Int) : Part := .parameter (.number n)

def said (s : String) : Part := if s.isEmpty then absent else .text s

def classOf : Part → Class
  | .parameter (.text _) => .text
  | .parameter (.number _) => .number
  | truth _ => .truth
  | absent => .absence
  | ofClass _ => .metaclass
  | row _ => .row
  | listing _ => .listing
  | emptyTable => .table
  | .feature f => match f.form with
    | .operator => .operator
    | .classMethod => .classMethod
    | .staticMethod => .staticMethod
    | .property => .property
    | .field => .field
    | _ => .method
  | bound f _ => if f.form = .operator then .boundOperator else .routine
  | keyed _ _ => .keyed

/-- Where a part is kept, which no text tells reliably. -/
def address : String := "0x7f0000000000"

def boundText (f : Feature) (holder : Class) : String :=
  let lead := if f.form = .operator then s!"method-wrapper '{f.name}'"
    else s!"built-in method {f.name}"
  s!"<{lead} of {holder.fullName} object at {address}>"

def featureText (f : Feature) : String :=
  match f.form with
  | .staticMethod => s!"<staticmethod({boundText f .metaclass})>"
  | form =>
    let lead := match form with
      | .operator => "slot wrapper"
      | .property => "attribute"
      | .field => "member"
      | _ => "method"
    s!"<{lead} '{f.name}' of '{f.home.fullName}' objects>"

def memberText (f : Feature) : String :=
  match f.form with
  | .maker => boundText f .metaclass
  | .about => Text.Quoted.encode (classManual f.home)
  | .nothing => "None"
  | _ => featureText f

def listingText (c : Class) : String :=
  let entry (m : Member) : String := s!"'{m.name}': {memberText ⟨m, c⟩}"
  "\x7b" ++ String.intercalate ", " (c.members.map entry) ++ "\x7d"

def rowText (items : List (Class ⊕ Parameter)) : String :=
  let texts := items.map fun
    | .inl c => c.shown
    | .inr p => p.display
  match texts with
  | [t] => "(" ++ t ++ ",)"
  | ts => "(" ++ String.intercalate ", " ts ++ ")"

def shown : Part → String
  | .parameter p => p.shown
  | truth b => if b then "True" else "False"
  | absent => "None"
  | ofClass c => c.shown
  | row items => rowText items
  | listing c => listingText c
  | emptyTable => "\x7b\x7d"
  | .feature f => featureText f
  | bound f holder => boundText f holder.classOf
  | keyed c key => c.name ++ "[" ++ key.display ++ "]"

/-- A part as it is shown to a developer. -/
def display : Part → String
  | .parameter p => p.display
  | listing c => "mappingproxy(" ++ listingText c ++ ")"
  | p => p.shown

def displayAscii : Part → String
  | .parameter (.text s) => Text.Quoted.encodeAscii s
  | keyed c (.text key) => c.name ++ "[" ++ Text.Quoted.encodeAscii key ++ "]"
  | row [.inr (.text key)] => "(" ++ Text.Quoted.encodeAscii key ++ ",)"
  | p => p.display

/-- What a conversion makes of a part. One that is marked by nothing leaves it as it is. -/
def convert? (mark : Char) (p : Part) : Option Part :=
  match mark with
  | 's' => some (.text p.shown)
  | 'r' => some (.text p.display)
  | 'a' => some (.text p.displayAscii)
  | '\x00' => some p
  | _ => none

def ofPart (p : Part) (f : Feature) : Part :=
  match f.form with
  | .maker | .staticMethod => bound f (ofClass f.home)
  | .classMethod => bound f (ofClass p.classOf)
  | .about => said (classManual f.home)
  | .nothing => absent
  | _ => bound f p

def ofMember (c : Class) (f : Feature) : Part :=
  match f.form with
  | .maker | .staticMethod => bound f (ofClass f.home)
  | .classMethod => bound f (ofClass c)
  | .about => said (classManual f.home)
  | .nothing => absent
  | _ => .feature f

def toldOfNumber? (n : Int) (name : String) : Option Part :=
  match name with
  | "real" | "numerator" => some (.number n)
  | "imag" => some (.number 0)
  | "denominator" => some (.number 1)
  | _ => none

def aboutClass (c : Class) : Part :=
  let s := classManual c
  if !s.isEmpty then .text s
  else match c.own? "__doc__" with
    | some f => ofMember c f
    | none => absent

def toldOfClass? (c : Class) (name : String) : Option Part :=
  let classes (cs : List Class) : Option Part := some (row (cs.map .inl))
  match name with
  | "__name__" | "__qualname__" => some (.text c.name)
  | "__module__" => some (.text c.place)
  | "__mro__" => classes c.lineage
  | "__bases__" => classes (c.lineage.tail.take 1)
  | "__base__" => some (match c.lineage.tail with
    | above :: _ => ofClass above
    | [] => absent)
  | "__dict__" => some (listing c)
  | "__doc__" => some (aboutClass c)
  | "__text_signature__" => some (said (classSignature c))
  | "__basicsize__" => some (.number c.measures.size)
  | "__itemsize__" => some (.number c.measures.itemSize)
  | "__flags__" => some (.number c.measures.marks)
  | "__dictoffset__" => some (.number c.measures.table)
  | "__weakrefoffset__" => some (.number c.measures.references)
  | _ => none

def toldOfFeature? (f : Feature) (name : String) : Option Part :=
  match name with
  | "__name__" => some (.text f.name)
  | "__qualname__" => some (.text (f.home.name ++ "." ++ f.name))
  | "__objclass__" => some (ofClass f.home)
  | "__doc__" => some (said f.manual.2)
  | "__text_signature__" => some (said f.manual.1)
  | "__func__" | "__wrapped__" => some (bound f (ofClass f.home))
  | "__isabstractmethod__" => some (truth false)
  | "__dict__" => some emptyTable
  | _ => none

/-- A bound operator tells what the operator tells. Another feature is named after the class that
it is bound to. -/
def toldOfBound? (f : Feature) (holder : Part) (name : String) : Option Part :=
  let isMethod := f.form ≠ .operator
  match name with
  | "__self__" => some (if f.form = .staticMethod then absent else holder)
  | "__module__" => some absent
  | "__qualname__" =>
    let home := match holder with
      | ofClass c => c
      | p => p.classOf
    if isMethod then some (.text (home.name ++ "." ++ f.name)) else toldOfFeature? f name
  | name => toldOfFeature? f name

def toldOfKeyed? (origin : Class) (key : Parameter) (name : String) : Option Part :=
  match name with
  | "__origin__" => some (ofClass origin)
  | "__args__" => some (row [.inr key])
  | "__parameters__" => some (row [])
  | "__unpacked__" => some (truth false)
  | "__typing_unpacked_tuple_args__" => some absent
  | _ => none

/-- What the properties and fields of its class tell of a part. -/
def told? (name : String) (p : Part) : Option Part :=
  if name = "__class__" then some (ofClass p.classOf)
  else match p with
    | .parameter (.number n) => toldOfNumber? n name
    | truth b => toldOfNumber? b.toNat name
    | ofClass c => toldOfClass? c name
    | .feature f => toldOfFeature? f name
    | bound f holder => toldOfBound? f holder name
    | keyed origin key => toldOfKeyed? origin key name
    | _ => none

/-- What a part has by a name. What its class tells of it comes first; a class has its own members
next, and what else its class knows comes last. -/
def plainAttribute? (name : String) (p : Part) : Option Part :=
  let known := p.classOf.feature? name
  if known.any (·.form.tells) then told? name p
  else
    let own := match p with
      | ofClass c => (c.feature? name).map (ofMember c)
      | _ => none
    own.or (known.map (ofPart p))

/-- What a class with a key has on its own; in all else the class stands for it. -/
def keyedNames : List String :=
  ["__class__", "__origin__", "__args__", "__unpacked__", "__parameters__",
    "__typing_unpacked_tuple_args__", "__mro_entries__", "__reduce_ex__", "__reduce__", "__copy__",
    "__deepcopy__"]

/-- What a part has by a name. -/
def attribute? (name : String) : Part → Option Part
  | keyed origin key =>
    plainAttribute? name (if keyedNames.contains name then keyed origin key else ofClass origin)
  | p => plainAttribute? name p

def element (key : Parameter) (p : Part) : Except MessageFault Part :=
  let at? {α : Type} (xs : List α) (n : Int) (make : α → Part) : Except MessageFault Part :=
    match xs[n.toNat]? with
    | some x => .ok (make x)
    | none => .error .unknownPosition
  match p, key with
  | .parameter (.text s), .number n => at? s.toList n fun c => .text c.toString
  | row items, .number n => at? items n fun
    | .inl c => ofClass c
    | .inr p => .parameter p
  | listing c, .text name =>
    match c.own? name with
    | some f => .ok (if f.form = .classMethod || f.form = .staticMethod then .feature f
      else ofMember c f)
    | none => .error .unknownName
  | listing _, _ | emptyTable, _ => .error .unknownName
  | ofClass c, key => if c.takesKeys then .ok (keyed c key) else .error .noElements
  | _, _ => .error .noElements

/-- The text of a part, laid out. Only texts and numbers have layouts; what is true or not counts
for a number. -/
def laidOut (spec : List CodePoint) (p : Part) : Except MessageFault (List CodePoint) :=
  let ofNumber (n : Int) : Except MessageFault (List CodePoint) :=
    (Layout.ofCodePoints 'd' spec).bind fun l => l.number n
  if spec.isEmpty then .ok (CodePoint.ofString p.shown)
  else match p with
    | .parameter (.text s) =>
      (Layout.ofCodePoints 's' spec).bind fun l => l.text (CodePoint.ofString s)
    | .parameter (.number n) => ofNumber n
    | truth b => ofNumber b.toNat
    | _ => .error .noLayout

end Part
end Message
end SignatureLayers

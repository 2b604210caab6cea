import SignatureLayers.Decl.Basic
import SignatureLayers.Text.Blank
import SignatureLayers.Text.Word

namespace SignatureLayers

open Text

inductive Head
  | useClause
  | container (kind : ContainerKind) (name : String)
  | leaf (kind : LeafKind) (name : String)
  | member (kind : MemberKind) (name : String) (oldName : Option String)
deriving DecidableEq, Repr

namespace Head

/-- What follows a keyword and the blanks behind it, of which there is at least one. -/
def afterKeyword? (keyword : String) (s : List Char) : Option (List Char) :=
  match after? keyword.toList s with
  | some (c :: rest) => if isBlank c then some (trimLeft rest) else none
  | _ => none

def colonFollows (s : List Char) : Bool := (trimLeft s).head? == some ':'

def singleColonFollows (s : List Char) : Bool :=
  match trimLeft s with
  | ':' :: ':' :: _ => false
  | ':' :: _ => true
  | _ => false

def leadingColons : List Char → List Char × List Char
  | ':' :: ':' :: s => ([':', ':'], s)
  | s => ([], s)

def laterSegments (s : List Char) : List Char × List Char :=
  match s with
  | ':' :: ':' :: c :: r =>
    if isUpper c then
      let more := laterSegments (r.dropWhile isWord)
      (':' :: ':' :: c :: r.takeWhile isWord ++ more.1, more.2)
    else ([], s)
  | _ => ([], s)
termination_by s.length
decreasing_by
  have := (List.dropWhile_sublist isWord (l := r)).length_le
  simp only [List.length_cons]
  omega

/-- Cuts off a constant's name, such as `::Outer::Inner`. -/
def constantName? (s : List Char) : Option (List Char × List Char) :=
  let (colons, s) := leadingColons s
  match s with
  | c :: r =>
    if isUpper c then
      let more := laterSegments (r.dropWhile isWord)
      some (colons ++ c :: r.takeWhile isWord ++ more.1, more.2)
    else none
  | [] => none

def scopes (s : List Char) : List Char × List Char :=
  match s with
  | c :: r =>
    if isUpper c then
      match _h : r.dropWhile isWord with
      | ':' :: ':' :: rest =>
        let more := scopes rest
        (c :: r.takeWhile isWord ++ ':' :: ':' :: more.1, more.2)
      | _ => ([], s)
    else ([], s)
  | [] => ([], s)
termination_by s.length
decreasing_by
  have := (List.dropWhile_sublist isWord (l := r)).length_le
  rw [_h] at this
  simp only [List.length_cons] at this ⊢
  omega

/-- Cuts off an interface's name: scopes, then a low line and at least one word character. -/
def interfaceName? (s : List Char) : Option (List Char) :=
  let (colons, s) := leadingColons s
  let (lead, s) := scopes s
  match s with
  | '_' :: r =>
    match r.takeWhile isWord with
    | [] => none
    | w => some (colons ++ lead ++ '_' :: w)
  | _ => none

/-- Cuts off a type alias's name: scopes, then a small letter or a low line leads. -/
def aliasName? (s : List Char) : Option (List Char) :=
  let (colons, s) := leadingColons s
  let (lead, s) := scopes s
  match s with
  | c :: r =>
    if isLower c || c == '_' then some (colons ++ lead ++ c :: r.takeWhile isWord) else none
  | [] => none

def sigilName? (lead : String) (s : List Char) : Option (List Char) :=
  (after? lead.toList s).bind fun r =>
    match r.takeWhile isWord with
    | [] => none
    | w => if colonFollows (r.dropWhile isWord) then some (lead.toList ++ w) else none

/-- A class or a module: an equals sign behind the name makes it an alias. -/
def scopeHead? (kind : ContainerKind) (aliasKind : LeafKind) (s : List Char) : Option Head :=
  (afterKeyword? kind.label s).bind fun s =>
    (constantName? s).map fun (name, rest) =>
      if (trimLeft rest).head? == some '=' then .leaf aliasKind (String.ofList name)
      else .container kind (String.ofList name)

def useHead? (s : List Char) : Option Head :=
  (afterKeyword? "use" s).bind fun r => if r.isEmpty then none else some .useClause

def interfaceHead? (s : List Char) : Option Head :=
  (afterKeyword? "interface" s).bind fun s =>
    (interfaceName? s).map fun name => .container .interfaceDecl (String.ofList name)

def typeHead? (s : List Char) : Option Head :=
  (afterKeyword? "type" s).bind fun s =>
    (aliasName? s).map fun name => .leaf .typeAlias (String.ofList name)

def globalHead? (s : List Char) : Option Head :=
  (sigilName? "$" s).map fun name => .leaf .global (String.ofList name)

def constantHead? (s : List Char) : Option Head :=
  (constantName? s).bind fun (name, rest) =>
    if singleColonFollows rest then some (.leaf .constant (String.ofList name)) else none

/-- What may stand at the top level. -/
def declaration? (s : List Char) : Option Head :=
  useHead? s <|> scopeHead? .classDecl .classAlias s <|> scopeHead? .moduleDecl .moduleAlias s <|>
    interfaceHead? s <|> typeHead? s <|> globalHead? s <|> constantHead? s

/-- A method's name between back quotes, when a colon follows it. -/
def quotedName? (s : List Char) : Option (List Char) :=
  let mark := Char.ofNat 96
  match s with
  | c :: r =>
    if c = mark then
      match r.takeWhile (· ≠ mark), r.dropWhile (· ≠ mark) with
      | [], _ => none
      | _, [] => none
      | w, _ :: rest => if colonFollows rest then some (mark :: w ++ [mark]) else none
    else none
  | [] => none

def bareName? (s : List Char) : Option (List Char) :=
  let inName (c : Char) : Bool := !(isBlank c || c == ':')
  match s.takeWhile inName with
  | [] => none
  | w => if colonFollows (s.dropWhile inName) then some w else none

def receiver? (s : List Char) : Option (List Char × List Char) :=
  match after? "self.".toList s with
  | some r => some ("self.".toList, r)
  | none => (after? "self?.".toList s).map fun r => ("self?.".toList, r)

/-- A method's name; what looks like a receiver belongs to the name when no other name follows. -/
def methodName? (s : List Char) : Option (List Char) :=
  match receiver? s with
  | some (lead, r) => ((quotedName? r <|> bareName? r).map (lead ++ ·)) <|> bareName? s
  | none => quotedName? s <|> bareName? s

def skipVisibility (s : List Char) : List Char :=
  (afterKeyword? "public" s <|> afterKeyword? "private" s).getD s

def ofMember (kind : MemberKind) (name : List Char) : Head :=
  .member kind (String.ofList name) none

def aliasHead? (s : List Char) : Option Head :=
  let inName (c : Char) : Bool := !isBlank c
  (afterKeyword? "alias" s).bind fun r =>
    match r.takeWhile inName, (trimLeft (r.dropWhile inName)).takeWhile inName with
    | [], _ => none
    | _, [] => none
    | new, old => some (.member .methodAlias (String.ofList new) (some (String.ofList old)))

def methodHead? (s : List Char) : Option Head :=
  (afterKeyword? "def" (skipVisibility s)).bind fun r => (methodName? r).map (ofMember .method)

def mixinHead? (kind : MemberKind) (s : List Char) : Option Head :=
  (afterKeyword? kind.label s).bind fun r =>
    match r.takeWhile fun c => !(isBlank c || c == '[') with
    | [] => none
    | name => some (ofMember kind name)

/-- An attribute's name; a mark of exclamation or question may end it. -/
def attributeName? (s : List Char) : Option (List Char) :=
  match s.takeWhile isWord with
  | [] => none
  | w =>
    match s.dropWhile isWord with
    | '?' :: _ => some (w ++ ['?'])
    | '!' :: _ => some (w ++ ['!'])
    | _ => some w

def attributeHead? (kind : MemberKind) (s : List Char) : Option Head :=
  (afterKeyword? kind.label (skipVisibility s)).bind fun r =>
    let owned := (after? "self.".toList r).bind fun r =>
      (attributeName? r).map ("self.".toList ++ ·)
    (owned <|> attributeName? r).map (ofMember kind)

def visibilityHead? (kind : MemberKind) (s : List Char) : Option Head :=
  (after? kind.label.toList s).bind fun r =>
    match trimLeft r with
    | [] | '#' :: _ => some (ofMember kind kind.label.toList)
    | _ => none

/-- What may stand in a container beside declarations. -/
def member? (s : List Char) : Option Head :=
  aliasHead? s <|> methodHead? s <|>
    (sigilName? "self.@" s).map (ofMember .classInstanceVariable) <|>
    (sigilName? "@@" s).map (ofMember .classVariable) <|>
    (sigilName? "@" s).map (ofMember .instanceVariable) <|>
    mixinHead? .includeMixin s <|> mixinHead? .extendMixin s <|> mixinHead? .prependMixin s <|>
    attributeHead? .attrReader s <|> attributeHead? .attrWriter s <|>
    attributeHead? .attrAccessor s <|>
    visibilityHead? .publicMark s <|> visibilityHead? .privateMark s

/-- What a line declares as the head of a statement. -/
def ofLine? (s : List Char) : Option Head := declaration? s <|> member? s

end Head
end SignatureLayers

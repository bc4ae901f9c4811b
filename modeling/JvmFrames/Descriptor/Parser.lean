import JvmFrames.Descriptor

/-!
# Reading descriptors

Each reader takes a descriptor off the front of a text and returns it with what is left. The `parse`
functions read a whole text and refuse anything after the descriptor.
-/

namespace JvmFrames

/-- Why a text does not start with a descriptor. -/
inductive DescriptorError where
  | missingBaseType
  | unknownBaseType (c : Char)
  | notAClass
  | unterminatedClass (read : String)
  | badName (error : NameError)
  | unknownReference (c : Char)
  | missingReference
  | missingField
  | notAMethod
  | unterminatedParameters
  | trailing (c : Char)
  deriving DecidableEq

namespace DescriptorError

def message : DescriptorError → String
  | missingBaseType => "Missing base type character"
  | unknownBaseType c => "Invalid base type character '" ++ String.singleton c ++ "'"
  | notAClass => "Expected object type to start with 'L'"
  | unterminatedClass read => "Missing ';' after 'L" ++ read ++ "'"
  | badName error => error.message
  | unknownReference c => "Invalid reference type character '" ++ String.singleton c ++ "'"
  | missingReference => "Missing reference type"
  | missingField => "Missing field type"
  | notAMethod => "Expected '(' to start method descriptor"
  | unterminatedParameters => "Missing ')' in method descriptor"
  | trailing c => "Unexpected '" ++ String.singleton c ++ "' after descriptor"

/-- The text ended too early, as opposed to holding something wrong. -/
def isTruncation : DescriptorError → Bool
  | missingBaseType | unterminatedClass _ | missingReference | missingField
  | unterminatedParameters => true
  | _ => false

end DescriptorError

/-- Reads a value off the front of a text. -/
abbrev DescriptorReader (α : Type) : Type :=
  List Char → Except DescriptorError (α × List Char)

def BaseType.read : DescriptorReader BaseType
  | [] => .error .missingBaseType
  | c :: rest => match ofLetter? c with
    | some t => .ok (t, rest)
    | none => .error (.unknownBaseType c)

/-- The text up to the semicolon that ends a class, checked as a class name. -/
def ClassName.readBody (body : List Char) : DescriptorReader ClassName
  | [] => .error (.unterminatedClass (String.ofList body.reverse))
  | ';' :: rest => match ClassName.parse (String.ofList body.reverse) with
    | .ok name => .ok (name, rest)
    | .error e => .error (.badName e)
  | c :: rest => readBody (c :: body) rest

def ClassName.read : DescriptorReader ClassName
  | 'L' :: rest => readBody [] rest
  | _ => .error .notAClass

/-- The element of an array of the given dimensions beyond the first. -/
def RefType.readElement (additional : Nat) : DescriptorReader RefType
  | [] => .error .missingReference
  | 'L' :: rest => do
    let (c, rest) ← ClassName.read ('L' :: rest)
    return (.objectArray additional c, rest)
  | '[' :: rest => readElement (additional + 1) rest
  | chars => do
    let (t, rest) ← BaseType.read chars
    return (.primitiveArray additional t, rest)

def RefType.read : DescriptorReader RefType
  | [] => .error .missingReference
  | 'L' :: rest => do
    let (c, rest) ← ClassName.read ('L' :: rest)
    return (.object c, rest)
  | '[' :: rest => readElement 0 rest
  | c :: _ => .error (.unknownReference c)

def FieldType.read : DescriptorReader FieldType
  | [] => .error .missingField
  | c :: rest =>
    if c = 'L' ∨ c = '[' then do
      let (t, rest) ← RefType.read (c :: rest)
      return (.ref t, rest)
    else do
      let (t, rest) ← BaseType.read (c :: rest)
      return (.base t, rest)

/-! ### Every reader consumes something

The parameters of a method are read one after the other, which ends because each takes at least one
character. -/

theorem BaseType.read_length_lt {s rest : List Char} {t : BaseType}
    (h : BaseType.read s = .ok (t, rest)) : rest.length < s.length := by
  cases s with
  | nil => simp [BaseType.read] at h
  | cons c cs =>
    simp only [BaseType.read] at h
    split at h
    · cases h; simp
    · cases h

theorem ClassName.readBody_length_lt {s body rest : List Char} {c : ClassName}
    (h : ClassName.readBody body s = .ok (c, rest)) : rest.length < s.length := by
  fun_induction ClassName.readBody body s with
  | case1 => cases h
  | case2 body s name hname => cases h; simp
  | case3 body s e hname => cases h
  | case4 body x s hx ih =>
    have := ih h
    simp only [List.length_cons]
    omega

theorem ClassName.read_length_lt {s rest : List Char} {c : ClassName}
    (h : ClassName.read s = .ok (c, rest)) : rest.length < s.length := by
  unfold ClassName.read at h
  split at h
  · have := ClassName.readBody_length_lt h
    simp only [List.length_cons]
    omega
  · cases h

/-- A reader followed by a function on its value consumes what the reader consumes. -/
theorem length_lt_of_bind {α β : Type} {r : Except DescriptorError (α × List Char)} {f : α → β}
    {b : β} {s rest : List Char}
    (hr : ∀ a rest, r = .ok (a, rest) → rest.length < s.length)
    (h : (do let (a, rest) ← r; return (f a, rest)) = Except.ok (b, rest)) :
    rest.length < s.length := by
  cases r with
  | error e => cases h
  | ok p =>
    obtain ⟨a, rest'⟩ := p
    cases h
    exact hr a rest rfl

theorem RefType.readElement_length_lt {s rest : List Char} {n : Nat} {t : RefType}
    (h : RefType.readElement n s = .ok (t, rest)) : rest.length < s.length := by
  fun_induction RefType.readElement n s with
  | case1 => cases h
  | case2 n cs => exact length_lt_of_bind (fun _ _ => ClassName.read_length_lt) h
  | case3 n cs ih =>
    have := ih h
    simp only [List.length_cons]
    omega
  | case4 n s _ _ _ => exact length_lt_of_bind (fun _ _ => BaseType.read_length_lt) h

theorem RefType.read_length_lt {s rest : List Char} {t : RefType}
    (h : RefType.read s = .ok (t, rest)) : rest.length < s.length := by
  unfold RefType.read at h
  split at h
  · cases h
  · exact length_lt_of_bind (fun _ _ => ClassName.read_length_lt) h
  · have := RefType.readElement_length_lt h
    simp only [List.length_cons]
    omega
  · cases h

theorem FieldType.read_length_lt {s rest : List Char} {t : FieldType}
    (h : FieldType.read s = .ok (t, rest)) : rest.length < s.length := by
  unfold FieldType.read at h
  split at h
  · cases h
  · split at h
    · exact length_lt_of_bind (fun _ _ => RefType.read_length_lt) h
    · exact length_lt_of_bind (fun _ _ => BaseType.read_length_lt) h

/-- The parameters of a method, up to and including the closing parenthesis. -/
def MethodDescriptor.readParameters (s : List Char) :
    Except DescriptorError (List FieldType × List Char) :=
  match s with
  | [] => .error .unterminatedParameters
  | ')' :: rest => .ok ([], rest)
  | c :: cs =>
    match h : FieldType.read (c :: cs) with
    | .error e => .error e
    | .ok (t, rest) =>
      have := FieldType.read_length_lt h
      match readParameters rest with
      | .error e => .error e
      | .ok (ts, rest) => .ok (t :: ts, rest)
termination_by s.length
decreasing_by assumption

/-- The result of a method, or the letter that says there is none. -/
def MethodDescriptor.readResult : DescriptorReader (Option FieldType)
  | 'V' :: rest => .ok (none, rest)
  | s => do
    let (t, rest) ← FieldType.read s
    return (some t, rest)

def MethodDescriptor.read : DescriptorReader MethodDescriptor
  | '(' :: rest => do
    let (parameters, rest) ← readParameters rest
    let (result, rest) ← readResult rest
    return (⟨parameters, result⟩, rest)
  | _ => .error .notAMethod

/-- Reads a whole text. -/
def DescriptorReader.parse {α : Type} (read : DescriptorReader α) (text : String) :
    Except DescriptorError α :=
  match read text.toList with
  | .error e => .error e
  | .ok (a, []) => .ok a
  | .ok (_, c :: _) => .error (.trailing c)

def BaseType.parse : String → Except DescriptorError BaseType := DescriptorReader.parse read
def RefType.parse : String → Except DescriptorError RefType := DescriptorReader.parse read
def FieldType.parse : String → Except DescriptorError FieldType := DescriptorReader.parse read

def MethodDescriptor.parse : String → Except DescriptorError MethodDescriptor :=
  DescriptorReader.parse read

/-- The type a class constant names: an array if it starts with a bracket, else a class. -/
def RefType.ofClassName (text : String) : Except DescriptorError RefType :=
  match text.toList with
  | '[' :: _ => RefType.parse text
  | _ => match ClassName.parse text with
    | .ok c => .ok (.object c)
    | .error e => .error (.badName e)

end JvmFrames

import Ebml.Bytes

/-!
# Schemas

A schema says what the elements of a document type are: which ids exist and, for each, its name,
its level in the hierarchy and the type of its data. No two declarations of a schema share an id;
`Schema.ofList` reports the first that do. Ids outside the schema are not errors, a reader skips
them.
-/

namespace Ebml

/-- What an element's data holds. -/
inductive ElementType
  | integer
  | unsigned
  | float
  /-- Text in ASCII. -/
  | ascii
  /-- Text in UTF-8. -/
  | utf8
  | date
  /-- Other elements. -/
  | master
  | binary
  deriving DecidableEq, Repr, Inhabited

/-- The short name of a type. -/
def ElementType.label : ElementType → String
  | .integer => "int"
  | .unsigned => "uint"
  | .float => "float"
  | .ascii => "string"
  | .utf8 => "utf8"
  | .date => "date"
  | .master => "master"
  | .binary => "binary"

/-- The declaration of an element. -/
structure ElementDecl where
  id : Nat
  name : String
  /-- Depth in the hierarchy. A negative level marks an element that may stand anywhere. -/
  level : Int
  type : ElementType
  /-- Whether the element may hold elements of its own id. -/
  recursive : Bool := false
  deriving DecidableEq, Repr, Inhabited

namespace ElementDecl

/-- Global elements may stand at any depth. -/
def isGlobal (d : ElementDecl) : Bool :=
  d.level < 0

/-- Masters hold other elements. -/
def isMaster (d : ElementDecl) : Bool :=
  d.type == .master

/-- Name and id, as in `Cluster(0x1F43B675)`. -/
def text (d : ElementDecl) : String :=
  d.name ++ "(" ++ hexId d.id ++ ")"

end ElementDecl

/-- A set of declarations with distinct ids. -/
structure Schema where
  decls : List ElementDecl
  distinct : decls.Pairwise fun a b => a.id ≠ b.id

/-- Why declarations form no schema. -/
inductive SchemaError
  | duplicateId (id : Nat) (first second : String)
  deriving DecidableEq, Repr

def SchemaError.message : SchemaError → String
  | .duplicateId id first second => s!"duplicate element id {hexId id}: {first} and {second}"

namespace Schema

/-- The first of `decls` whose id is taken, by one of `seen` or by an earlier one, together with
the declaration that took it. -/
def firstClash (seen : List ElementDecl) : List ElementDecl → Option (ElementDecl × ElementDecl)
  | [] => none
  | d :: rest =>
    match seen.find? fun e => e.id = d.id with
    | some e => some (e, d)
    | none => firstClash (d :: seen) rest

/-- Without a clash the ids are distinct, among themselves and from those seen before. -/
theorem pairwise_of_firstClash {seen decls : List ElementDecl} (h : firstClash seen decls = none) :
    (decls.Pairwise fun a b => a.id ≠ b.id) ∧ ∀ e ∈ seen, ∀ d ∈ decls, e.id ≠ d.id := by
  induction decls generalizing seen with
  | nil => simp
  | cons d rest ih =>
    rw [firstClash] at h
    split at h
    · contradiction
    · rename_i hfind
      obtain ⟨hpair, hseen⟩ := ih h
      refine ⟨List.pairwise_cons.mpr ⟨hseen d (by simp), hpair⟩, fun e he d' hd' => ?_⟩
      rcases List.mem_cons.mp hd' with rfl | hrest
      · simpa using List.find?_eq_none.mp hfind e he
      · exact hseen e (List.mem_cons_of_mem _ he) d' hrest

/-- The schema of the given declarations. -/
def ofList (decls : List ElementDecl) : Except SchemaError Schema :=
  match h : firstClash [] decls with
  | some (e, d) => .error (.duplicateId d.id e.name d.name)
  | none => .ok ⟨decls, (pairwise_of_firstClash h).1⟩

/-- The declaration of an id. -/
def get? (s : Schema) (id : Nat) : Option ElementDecl :=
  s.decls.find? fun d => d.id = id

/-- The declaration of a name. Capital and small ASCII letters count as equal. -/
def findName? (s : Schema) (name : String) : Option ElementDecl :=
  s.decls.find? fun d => d.name.map Char.toLower = name.map Char.toLower

/-- The number of declarations. -/
def size (s : Schema) : Nat :=
  s.decls.length

end Schema

end Ebml

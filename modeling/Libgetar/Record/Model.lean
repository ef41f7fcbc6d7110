import Libgetar.Lib.Compare

/-!
# Records

`Record` of `src/Record.cpp`: the six fields of a record, the parser that fills them from a path
(`Record.ofPath`, the constructor), the printer that builds a path from them (`Record.getPath`), and
the order that the catalogue keeps records in (`Record.lt`).

The parser cuts the path at every `/` and looks at the third-to-last segment: `frames` makes the
record discrete, `vars` continuous, and anything else constant. Every segment in front of the window
goes to the group. The name is cut at every `.`, and its last two pieces are the format and the
resolution when they are suffixes of binary records.
-/

namespace Libgetar

open Lib

/-- Time behavior of properties. -/
inductive Behavior
  | constant
  | discrete
  | continuous
  deriving DecidableEq, Repr

/-- Binary formats in which properties can be stored. -/
inductive Format
  | float32
  | float64
  | int32
  | int64
  | uint8
  | uint32
  | uint64
  deriving DecidableEq, Repr

/-- Level of detail of property storage. -/
inductive Resolution
  | text
  | uniform
  | individual
  deriving DecidableEq, Repr

/-- A record. The defaults are those of the constructor without arguments. -/
structure Record where
  group : Bytes := []
  name : Bytes := []
  index : Bytes := []
  behavior : Behavior := .constant
  format : Format := .uint8
  resolution : Resolution := .text
  deriving DecidableEq, Repr

/-- The path separator. -/
def slash : UInt8 := 47

/-- The separator of the pieces of a name. -/
def dot : UInt8 := 46

namespace Record

/-! ## Index -/

/-- Swaps the index with an empty string and returns it. -/
def nullifyIndex (r : Record) : Bytes × Record := (r.index, { r with index := [] })

/-- A copy with an empty index. -/
def withNullifiedIndex (r : Record) : Record := r.nullifyIndex.2

/-- Sets the index. -/
def setIndex (r : Record) (index : Bytes) : Record := { r with index := index }

end Record

/-! ## Printing -/

/-- The suffix that `getPath` prints for a format. -/
def Format.suffix : Format → Bytes
  | .float32 => lit ".f32"
  | .float64 => lit ".f64"
  | .int32 => lit ".i32"
  | .int64 => lit ".i64"
  | .uint32 => lit ".u32"
  | .uint64 => lit ".u64"
  | .uint8 => lit ".u8"

/-- The suffix that `getPath` prints for a resolution; text has none. -/
def Resolution.suffix : Resolution → Bytes
  | .uniform => lit ".uni"
  | .individual => lit ".ind"
  | .text => []

namespace Record

/-- `fullName` of `getPath`: the name with its format and resolution. -/
def fullName (r : Record) : Bytes :=
  r.name ++ (if r.resolution ≠ .text then r.format.suffix else []) ++ r.resolution.suffix

/-- The path of a record inside an archive. -/
def getPath (r : Record) : Bytes :=
  (if r.group.length ≠ 0 then r.group ++ [slash] else []) ++
    match r.behavior with
    | .continuous => lit "vars/" ++ r.fullName ++ [slash] ++ r.index
    | .discrete => lit "frames/" ++ r.index ++ [slash] ++ r.fullName
    | .constant => r.fullName

/-! ## Parsing -/

/-- The format that a piece of a name spells, in the order of `processName`'s tests. -/
def parseFormat (piece : Bytes) : Option Format :=
  if piece = lit "f32" then some .float32
  else if piece = lit "f64" then some .float64
  else if piece = lit "i32" then some .int32
  else if piece = lit "i64" then some .int64
  else if piece = lit "u8" then some .uint8
  else if piece = lit "u32" then some .uint32
  else if piece = lit "u64" then some .uint64
  else none

/-- Parses the last segment of a path: name, format, and resolution. -/
def processName (r : Record) (name : Bytes) : Record :=
  let pieces := split name dot
  let n := pieces.length
  -- All but the last 3 pieces of the name definitely go into the name.
  let m_name := (pieces.take (n - 3)).foldl (fun m_name piece => m_name ++ piece ++ [dot]) r.name
  if n > 2 then
    let last := pieces.getD (n - 1) []
    let m_name := m_name ++ pieces.getD (n - 3) []
    let whole := m_name ++ [dot] ++ pieces.getD (n - 2) [] ++ [dot] ++ last
    if last = lit "ind" ∨ last = lit "uni" then
      let resolution := if last = lit "ind" then .individual else .uniform
      match parseFormat (pieces.getD (n - 2) []) with
      | some format => { r with name := m_name, format := format, resolution := resolution }
      | none => { r with name := whole, format := .uint8, resolution := .text }
    else { r with name := whole, format := .uint8, resolution := .text }
  else
    { r with
      name := pieces.zipIdx.foldl
        (fun m_name (piece, i) => m_name ++ piece ++ if i + 1 < n then [dot] else []) m_name }

/-- The last segment of a path below `vars` is the index. -/
def processVarIndex (r : Record) (index : Bytes) : Record :=
  { r with behavior := .continuous, index := index }

/-- The segment behind `frames` is the index. -/
def processFrameIndex (r : Record) (index : Bytes) : Record :=
  { r with behavior := .discrete, index := index }

/-- The first value that an `int` does not hold. -/
def intBound : ℕ := 2^31

/-- What an `int` keeps of a value: its low 32 bits, signed. -/
def toInt (z : ℤ) : ℤ := (z + intBound) % 2^32 - intBound

/-- Where the second loop of `process` starts: `size_t i(max(0, (int) dirs.size() - 3))`. The
subtraction is one of `int` as well. Where its value leaves the range, which the language does not
define, it wraps as two's complement does. -/
def windowStart (n : ℕ) : ℕ := (max 0 (toInt (toInt n - 3))).toNat

/-- Parses the segments of a path. -/
def process (r : Record) (dirs : List Bytes) : Record :=
  let n := dirs.length
  -- All but the last 3 segments of the path definitely go into the group.
  let r := { r with group := joinSegs slash r.group (dirs.take (n - 3)) }
  if n > 2 ∧ dirs.getD (n - 3) [] = lit "frames" then
    (r.processFrameIndex (dirs.getD (n - 2) [])).processName (dirs.getD (n - 1) [])
  else if n > 2 ∧ dirs.getD (n - 3) [] = lit "vars" then
    (r.processName (dirs.getD (n - 2) [])).processVarIndex (dirs.getD (n - 1) [])
  else
    -- Neither was found: everything up to the last segment goes into the group.
    let r := { r with
      group := joinSegs slash r.group ((dirs.take (n - 1)).drop (windowStart n)) }
    if n ≠ 0 then r.processName (dirs.getD (n - 1) []) else r

/-- The record that a path names: the constructor from a path. -/
def ofPath (path : Bytes) : Record := process {} (split path slash)

example : ofPath (lit "rigid/frames/ab cd/com.f32.ind") =
    { group := lit "rigid", name := lit "com", index := lit "ab cd", behavior := .discrete,
      format := .float32, resolution := .individual } := by decide

end Record

/-! ## Order -/

/-- The rank of a behavior in its enumeration. -/
def Behavior.rank : Behavior → ℕ
  | .constant => 0
  | .discrete => 1
  | .continuous => 2

/-- The rank of a format in its enumeration. -/
def Format.rank : Format → ℕ
  | .float32 => 0
  | .float64 => 1
  | .int32 => 2
  | .int64 => 3
  | .uint8 => 4
  | .uint32 => 5
  | .uint64 => 6

/-- The rank of a resolution in its enumeration. -/
def Resolution.rank : Resolution → ℕ
  | .text => 0
  | .uniform => 1
  | .individual => 2

namespace Record

/-- `lthelper`: `a` is below `b`, or equal to it and the rest decides. -/
def lthelper {κ : Type*} [DecidableEq κ] (r : κ → κ → Bool) (a b : κ) (rest : Bool) : Bool :=
  r a b || (decide (a = b) && rest)

/-- `operator<`. -/
def lt (a b : Record) : Bool :=
  lthelper bytesLt a.group b.group <|
  lthelper bytesLt a.name b.name <|
  lthelper (fun x y => natLt x.rank y.rank) a.behavior b.behavior <|
  lthelper (fun x y => natLt x.rank y.rank) a.format b.format <|
  lthelper (fun x y => natLt x.rank y.rank) a.resolution b.resolution <|
  bytesLt a.index b.index

end Record

theorem Behavior.rank_injective : Function.Injective Behavior.rank := by
  intro a b; cases a <;> cases b <;> simp [Behavior.rank]

theorem Format.rank_injective : Function.Injective Format.rank := by
  intro a b; cases a <;> cases b <;> simp [Format.rank]

theorem Resolution.rank_injective : Function.Injective Resolution.rank := by
  intro a b; cases a <;> cases b <;> simp [Resolution.rank]

instance : StrictTotal fun a b : Behavior => natLt a.rank b.rank :=
  StrictTotal.comap Behavior.rank Behavior.rank_injective

instance : StrictTotal fun a b : Format => natLt a.rank b.rank :=
  StrictTotal.comap Format.rank Format.rank_injective

instance : StrictTotal fun a b : Resolution => natLt a.rank b.rank :=
  StrictTotal.comap Resolution.rank Resolution.rank_injective

namespace Record

/-- `lthelper` of a lawful comparator is a step of a lexicographic order. -/
theorem lthelper_eq {κ : Type*} [DecidableEq κ] (r : κ → κ → Bool) [StrictTotal r] (a b : κ)
    (rest : Bool) : lthelper r a b rest = (r a b || (!r b a && rest)) := by
  unfold lthelper
  rcases StrictTotal.trichotomy (r := r) a b with ⟨h, -, -⟩ | ⟨h, rfl, -⟩ | ⟨h, hne, h'⟩
  · simp [h]
  · simp [h]
  · simp [h, hne, h']

/-- The fields in the order in which `operator<` compares them. -/
def orderKey (r : Record) :
    Bytes × Bytes × Behavior × Format × Resolution × Bytes :=
  (r.group, r.name, r.behavior, r.format, r.resolution, r.index)

theorem orderKey_injective : Function.Injective orderKey := by
  rintro ⟨⟩ ⟨⟩ h
  simp only [orderKey, Prod.mk.injEq] at h
  obtain ⟨rfl, rfl, rfl, rfl, rfl, rfl⟩ := h
  rfl

/-- The comparator of `orderKey` that `operator<` spells out. -/
def orderKeyLt : (a b : Bytes × Bytes × Behavior × Format × Resolution × Bytes) → Bool :=
  lexLt bytesLt <| lexLt bytesLt <| lexLt (fun x y => natLt x.rank y.rank) <|
    lexLt (fun x y => natLt x.rank y.rank) <| lexLt (fun x y => natLt x.rank y.rank) bytesLt

instance : StrictTotal orderKeyLt := by unfold orderKeyLt; infer_instance

/-- `operator<` is the lexicographic order of the fields. -/
theorem lt_eq_orderKeyLt (a b : Record) : a.lt b = orderKeyLt a.orderKey b.orderKey := by
  simp only [lt, lthelper_eq, orderKeyLt, lexLt, orderKey]

/-- `operator<` is lawful, so a map keyed by records has one entry for each. -/
instance : StrictTotal Record.lt := by
  have h : Record.lt = fun a b => orderKeyLt a.orderKey b.orderKey :=
    funext fun a => funext fun b => lt_eq_orderKeyLt a b
  rw [h]
  exact StrictTotal.comap orderKey orderKey_injective

end Record

end Libgetar

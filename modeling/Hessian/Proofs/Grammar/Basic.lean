import Hessian.Lead
import Hessian.Proofs.Text.Scan
import Hessian.Double.Rounding
import Hessian.Text.Unicode
import Hessian.Date
import Hessian.Value.Basic

/-!
# The grammar

What octets are a value is said here without saying how they are read.  `Lead.covers` is the table
of lead bytes.  Each kind of scalar has its forms (`IntForm` and its like).  Strings and binary data
are chains of chunks (`Chain`).  Types, definitions and containers depend on the tables of the
session, and change them, so their forms stand between two `Tables`.

`Derives n tb bytes phrase tb'` holds if the octets are a phrase of the grammar that has `n` levels
of containers, and take the tables from `tb` to `tb'`.  A phrase is a value, or a row of values or
of pairs.

## Main definitions

* `Lead.covers` : the table of lead bytes.
* `Tables` : what a stream has announced so far.
* `Grammar.Derives` : the octets of values.
-/

namespace Hessian

/-- Whether a byte announces a form. -/
def Lead.covers (b : UInt8) : Lead → Bool
  | .null => b == 0x4e
  | .boolean true => b == 0x54
  | .boolean false => b == 0x46
  | .int 0 high => 0x80 ≤ b && b ≤ 0xbf && high == b.toNat - 0x90
  | .int 1 high => 0xc0 ≤ b && b ≤ 0xcf && high == b.toNat - 0xc8
  | .int 2 high => 0xd0 ≤ b && b ≤ 0xd7 && high == b.toNat - 0xd4
  | .intWord => b == 0x49
  | .long 0 high => 0xd8 ≤ b && b ≤ 0xef && high == b.toNat - 0xe0
  | .long 1 high => 0xf0 ≤ b && b ≤ 0xff && high == b.toNat - 0xf8
  | .long 2 high => 0x38 ≤ b && b ≤ 0x3f && high == b.toNat - 0x3c
  | .longInt => b == 0x59
  | .longWord => b == 0x4c
  | .doubleZero => b == 0x5b
  | .doubleOne => b == 0x5c
  | .doubleByte => b == 0x5d
  | .doubleShort => b == 0x5e
  | .doubleMilli => b == 0x5f
  | .doubleWord => b == 0x44
  | .dateMillis => b == 0x4a
  | .dateMinutes => b == 0x4b
  | .binary true 0 high => 0x20 ≤ b && b ≤ 0x2f && high == b.toNat - 0x20
  | .binary true 1 high => 0x34 ≤ b && b ≤ 0x37 && high == b.toNat - 0x34
  | .binary true 2 0 => b == 0x42
  | .binary false 2 0 => b == 0x41
  | .string true 0 high => b ≤ 0x1f && high == b.toNat
  | .string true 1 high => 0x30 ≤ b && b ≤ 0x33 && high == b.toNat - 0x30
  | .string true 2 0 => b == 0x53
  | .string false 2 0 => b == 0x52
  | .list true .terminated => b == 0x55
  | .list true .counted => b == 0x56
  | .list false .terminated => b == 0x57
  | .list false .counted => b == 0x58
  | .list true (.short length) => 0x70 ≤ b && b ≤ 0x77 && length == b.toNat - 0x70
  | .list false (.short length) => 0x78 ≤ b && b ≤ 0x7f && length == b.toNat - 0x78
  | .map true => b == 0x4d
  | .map false => b == 0x48
  | .definition => b == 0x43
  | .object => b == 0x4f
  | .objectShort index => 0x60 ≤ b && b ≤ 0x6f && index == b.toNat - 0x60
  | .ref => b == 0x51
  | .terminator => b == 0x5a
  | _ => false

namespace Lead

/-- What holds of all numbers below 256 holds of every byte. -/
@[elab_as_elim]
theorem forall_byte {P : UInt8 → Prop} (h : ∀ n : Fin 256, P (UInt8.ofNat n)) (b : UInt8) :
    P b := by
  have := h ⟨b.toNat, b.toNat_lt⟩
  rwa [UInt8.ofNat_toNat] at this

/-- The table has the form that a byte is read as. -/
theorem covers_of_ofByte {lead : Lead} {b : UInt8} (h : ofByte b = lead)
    (hl : lead ≠ .unassigned) : lead.covers b := by
  subst h
  revert hl
  refine forall_byte ?_ b
  decide +kernel

/-- A byte is read as no other form than the table has for it. -/
theorem ofByte_of_covers {lead : Lead} {b : UInt8} (h : lead.covers b) : ofByte b = lead := by
  unfold covers at h
  split at h
  -- a form has one byte, or a range of them that carries a number, or none
  all_goals first
    | obtain rfl := eq_of_beq h
      rfl
    | simp only [Bool.and_eq_true, decide_eq_true_eq, beq_iff_eq] at h
      obtain ⟨⟨hl, hu⟩, rfl⟩ := h
      revert hl hu
      refine forall_byte ?_ b
      decide +kernel
    | simp only [Bool.and_eq_true, decide_eq_true_eq, beq_iff_eq] at h
      obtain ⟨hu, rfl⟩ := h
      revert hu
      refine forall_byte ?_ b
      decide +kernel
    | cases h

end Lead

/-- What a stream has announced so far, to be referred to by number. -/
structure Tables where
  types : List String
  definitions : List Definition
  /-- How many containers have been started. -/
  containers : Nat

namespace Tables

/-- One more type. -/
def addType (tb : Tables) (name : String) : Tables := { tb with types := tb.types ++ [name] }

/-- One more definition. -/
def addDefinition (tb : Tables) (c : Definition) : Tables :=
  { tb with definitions := tb.definitions ++ [c] }

/-- One more container. -/
def addContainer (tb : Tables) : Tables := { tb with containers := tb.containers + 1 }

end Tables

namespace Grammar

/-! ## Scalars

A lead byte may carry the part of a number above the octets that follow it. -/

/-- The octets of an int. -/
inductive IntForm : Bytes → Int32 → Prop
  | split {b : UInt8} {tail : Nat} {high : Int} {word : Bytes}
      (lead : (Lead.int tail high).covers b) (width : word.length = tail) :
      IntForm (b :: word) (.ofInt (high * 256 ^ tail + word.toNat))
  | word {b : UInt8} {word : Bytes} (lead : Lead.intWord.covers b) (width : word.length = 4) :
      IntForm (b :: word) (.ofNat word.toNat)

/-- The octets of a long. -/
inductive LongForm : Bytes → Int64 → Prop
  | split {b : UInt8} {tail : Nat} {high : Int} {word : Bytes}
      (lead : (Lead.long tail high).covers b) (width : word.length = tail) :
      LongForm (b :: word) (.ofInt (high * 256 ^ tail + word.toNat))
  | int {b : UInt8} {word : Bytes} (lead : Lead.longInt.covers b) (width : word.length = 4) :
      LongForm (b :: word) (Int32.ofNat word.toNat).toInt64
  | word {b : UInt8} {word : Bytes} (lead : Lead.longWord.covers b) (width : word.length = 8) :
      LongForm (b :: word) (.ofNat word.toNat)

/-- The octets of a double. -/
inductive DoubleForm : Bytes → Double → Prop
  | zero {b : UInt8} (lead : Lead.doubleZero.covers b) : DoubleForm [b] .zero
  | one {b : UInt8} (lead : Lead.doubleOne.covers b) : DoubleForm [b] .one
  | byte {b : UInt8} {word : Bytes} (lead : Lead.doubleByte.covers b) (width : word.length = 1) :
      DoubleForm (b :: word) (.ofInt (Int8.ofNat word.toNat).toInt)
  | short {b : UInt8} {word : Bytes} (lead : Lead.doubleShort.covers b) (width : word.length = 2) :
      DoubleForm (b :: word) (.ofInt (Int16.ofNat word.toNat).toInt)
  | milli {b : UInt8} {word : Bytes} (lead : Lead.doubleMilli.covers b) (width : word.length = 4) :
      DoubleForm (b :: word) (.ofThousandths (Int32.ofNat word.toNat).toInt)
  | word {b : UInt8} {word : Bytes} (lead : Lead.doubleWord.covers b) (width : word.length = 8) :
      DoubleForm (b :: word) ⟨.ofNat word.toNat⟩

/-- The octets of a date, in milliseconds. -/
inductive DateForm : Bytes → Int64 → Prop
  | millis {b : UInt8} {word : Bytes} (lead : Lead.dateMillis.covers b) (width : word.length = 8) :
      DateForm (b :: word) (.ofNat word.toNat)
  | minutes {b : UInt8} {word : Bytes} (lead : Lead.dateMinutes.covers b)
      (width : word.length = 4) :
      DateForm (b :: word) (.ofInt ((Int32.ofNat word.toNat).toInt * 60000))

/-! ## Chunks -/

/-- A chunk of binary data, final or not. -/
inductive BinaryChunk : Bool → Bytes → Bytes → Prop
  | mk {isFinal : Bool} {b : UInt8} {tail high : Nat} {word part : Bytes}
      (lead : (Lead.binary isFinal tail high).covers b) (width : word.length = tail)
      (length : part.length = high * 256 ^ tail + word.toNat) :
      BinaryChunk isFinal (b :: (word ++ part)) part

/-- A chunk of a string, final or not.  Its length is that of its characters. -/
inductive TextChunk : Bool → Bytes → List Text.Character → Prop
  | mk {isFinal : Bool} {b : UInt8} {tail high : Nat} {word : Bytes}
      {part : List Text.Character}
      (lead : (Lead.string isFinal tail high).covers b) (width : word.length = tail)
      (length : part.length = high * 256 ^ tail + word.toNat)
      (complete : ∀ c ∈ part, c.Complete) :
      TextChunk isFinal (b :: (word ++ part.flatten)) part

/-- Chunks that are not final, and then one that is. -/
inductive Chain {α : Type} (chunk : Bool → Bytes → List α → Prop) : Bytes → List α → Prop
  | last {bytes : Bytes} {part : List α} (final : chunk true bytes part) : Chain chunk bytes part
  | more {bytes more : Bytes} {part rest : List α} (first : chunk false bytes part)
      (chain : Chain chunk more rest) : Chain chunk (bytes ++ more) (part ++ rest)

/-- The octets of a string. -/
inductive StringForm : Bytes → String → Prop
  | mk {bytes : Bytes} {characters : List Text.Character}
      (chain : Chain TextChunk bytes characters) : StringForm bytes (Text.ofCharacters characters)

/-- The octets of strings in a row. -/
inductive StringsForm : Bytes → List String → Prop
  | nil : StringsForm [] []
  | cons {bytes more : Bytes} {s : String} {rest : List String} (head : StringForm bytes s)
      (tail : StringsForm more rest) : StringsForm (bytes ++ more) (s :: rest)

/-! ## Headers -/

/-- The octets of a type: its name, or the place in the table where its name stands. -/
inductive TypeForm : Tables → Bytes → String → Tables → Prop
  | name {tb : Tables} {bytes : Bytes} {name : String} (form : StringForm bytes name) :
      TypeForm tb bytes name (tb.addType name)
  | index {tb : Tables} {bytes : Bytes} {n : Int32} {index : Nat} {name : String}
      (form : IntForm bytes n) (nonneg : n.toInt = index) (found : tb.types[index]? = some name) :
      TypeForm tb bytes name tb

/-- The octets of the type of a list or map that is typed or not. -/
inductive TitleForm : Bool → Tables → Bytes → Option String → Tables → Prop
  | typed {tb tb' : Tables} {bytes : Bytes} {name : String} (form : TypeForm tb bytes name tb') :
      TitleForm true tb bytes (some name) tb'
  | untyped {tb : Tables} : TitleForm false tb [] none tb

/-- The header of a list: its type, and how many items there are unless a terminator closes the
list. -/
inductive ListHead : Tables → Bytes → Option String → Option Nat → Tables → Prop
  | terminated {tb tb' : Tables} {b : UInt8} {typed : Bool} {title : Bytes} {type : Option String}
      (lead : (Lead.list typed .terminated).covers b) (form : TitleForm typed tb title type tb') :
      ListHead tb (b :: title) type none tb'.addContainer
  | counted {tb tb' : Tables} {b : UInt8} {typed : Bool} {title word : Bytes}
      {type : Option String} {n : Int32} {length : Nat}
      (lead : (Lead.list typed .counted).covers b) (form : TitleForm typed tb title type tb')
      (count : IntForm word n) (nonneg : n.toInt = length) :
      ListHead tb (b :: (title ++ word)) type (some length) tb'.addContainer
  | short {tb tb' : Tables} {b : UInt8} {typed : Bool} {title : Bytes} {type : Option String}
      {length : Nat} (lead : (Lead.list typed (.short length)).covers b)
      (form : TitleForm typed tb title type tb') :
      ListHead tb (b :: title) type (some length) tb'.addContainer

/-- The header of a map: its type. -/
inductive MapHead : Tables → Bytes → Option String → Tables → Prop
  | mk {tb tb' : Tables} {b : UInt8} {typed : Bool} {title : Bytes} {type : Option String}
      (lead : (Lead.map typed).covers b) (form : TitleForm typed tb title type tb') :
      MapHead tb (b :: title) type tb'.addContainer

/-- The octets of a definition after its lead byte. -/
inductive DefinitionForm : Bytes → Definition → Prop
  | mk {title word names : Bytes} {typeName : String} {n : Int32} {fieldNames : List String}
      (type : StringForm title typeName) (count : IntForm word n)
      (length : n.toInt = fieldNames.length) (fields : StringsForm names fieldNames) :
      DefinitionForm (title ++ (word ++ names)) ⟨typeName, fieldNames⟩

/-- The header of a class instance: any number of definitions, and then the place in the table
where its own definition stands. -/
inductive ObjectHead : Tables → Bytes → Definition → Tables → Prop
  | define {tb tb' : Tables} {b : UInt8} {bytes more : Bytes} {c d : Definition}
      (lead : Lead.definition.covers b) (form : DefinitionForm bytes c)
      (rest : ObjectHead (tb.addDefinition c) more d tb') :
      ObjectHead tb (b :: (bytes ++ more)) d tb'
  | index {tb : Tables} {b : UInt8} {word : Bytes} {n : Int32} {index : Nat} {c : Definition}
      (lead : Lead.object.covers b) (form : IntForm word n) (nonneg : n.toInt = index)
      (found : tb.definitions[index]? = some c) :
      ObjectHead tb (b :: word) c tb.addContainer
  | short {tb : Tables} {b : UInt8} {index : Nat} {c : Definition}
      (lead : (Lead.objectShort index).covers b) (found : tb.definitions[index]? = some c) :
      ObjectHead tb [b] c tb.addContainer

/-- The octets of a reference to a container that has been started. -/
inductive RefForm : Tables → Bytes → UInt32 → Prop
  | mk {tb : Tables} {b : UInt8} {word : Bytes} {n : Int32} {index : Nat}
      (lead : Lead.ref.covers b) (form : IntForm word n) (nonneg : n.toInt = index)
      (started : index < tb.containers) : RefForm tb (b :: word) (.ofNat index)

/-! ## Values -/

/-- What octets can be: a value, or values or pairs of them in a row. -/
inductive Phrase where
  | value (v : Value)
  | items (vs : List Value)
  | pairs (pairs : List (Value × Value))

/-- The octets are a phrase with so many levels of containers, and take the tables of the stream
from the first ones to the second ones. -/
inductive Derives : Nat → Tables → Bytes → Phrase → Tables → Prop
  | null {tb : Tables} {b : UInt8} (lead : Lead.null.covers b) : Derives 0 tb [b] (.value .null) tb
  | boolean {tb : Tables} {b : UInt8} {x : Bool} (lead : (Lead.boolean x).covers b) :
      Derives 0 tb [b] (.value (.boolean x)) tb
  | int {tb : Tables} {bytes : Bytes} {n : Int32} (form : IntForm bytes n) :
      Derives 0 tb bytes (.value (.int n)) tb
  | long {tb : Tables} {bytes : Bytes} {n : Int64} (form : LongForm bytes n) :
      Derives 0 tb bytes (.value (.long n)) tb
  | double {tb : Tables} {bytes : Bytes} {d : Double} (form : DoubleForm bytes d) :
      Derives 0 tb bytes (.value (.double d)) tb
  | date {tb : Tables} {bytes : Bytes} {millis : Int64} (form : DateForm bytes millis) :
      Derives 0 tb bytes (.value (.date millis)) tb
  | binary {tb : Tables} {bytes data : Bytes} (form : Chain BinaryChunk bytes data) :
      Derives 0 tb bytes (.value (.binary data)) tb
  | string {tb : Tables} {bytes : Bytes} {s : String} (form : StringForm bytes s) :
      Derives 0 tb bytes (.value (.string s)) tb
  | ref {tb : Tables} {bytes : Bytes} {index : UInt32} (form : RefForm tb bytes index) :
      Derives 0 tb bytes (.value (.ref index)) tb
  | counted {n : Nat} {tb tb' tb'' : Tables} {head body : Bytes} {type : Option String}
      {items : List Value} (header : ListHead tb head type (some items.length) tb')
      (parts : Derives n tb' body (.items items) tb'') :
      Derives (n + 1) tb (head ++ body) (.value (.list type items)) tb''
  | terminated {n : Nat} {tb tb' tb'' : Tables} {head body : Bytes} {z : UInt8}
      {type : Option String} {items : List Value} (header : ListHead tb head type none tb')
      (parts : Derives n tb' body (.items items) tb'') (lead : Lead.terminator.covers z) :
      Derives (n + 1) tb (head ++ (body ++ [z])) (.value (.list type items)) tb''
  | map {n : Nat} {tb tb' tb'' : Tables} {head body : Bytes} {z : UInt8} {type : Option String}
      {pairs : List (Value × Value)} (header : MapHead tb head type tb')
      (parts : Derives n tb' body (.pairs pairs) tb'') (lead : Lead.terminator.covers z) :
      Derives (n + 1) tb (head ++ (body ++ [z])) (.value (.map type (Entries.ofPairs pairs))) tb''
  | object {n : Nat} {tb tb' tb'' : Tables} {head body : Bytes} {c : Definition}
      {fields : List Value} (header : ObjectHead tb head c tb')
      (length : fields.length = c.fieldNames.length)
      (parts : Derives n tb' body (.items fields) tb'') :
      Derives (n + 1) tb (head ++ body) (.value (.object c fields)) tb''
  | noItems {tb : Tables} : Derives 0 tb [] (.items []) tb
  | item {n m : Nat} {tb tb' tb'' : Tables} {bytes more : Bytes} {v : Value} {vs : List Value}
      (head : Derives n tb bytes (.value v) tb') (tail : Derives m tb' more (.items vs) tb'') :
      Derives (max n m) tb (bytes ++ more) (.items (v :: vs)) tb''
  | noPairs {tb : Tables} : Derives 0 tb [] (.pairs []) tb
  | pair {n m k : Nat} {tb tb' tb'' tb''' : Tables} {bytes bytes' more : Bytes} {key v : Value}
      {rest : List (Value × Value)} (first : Derives n tb bytes (.value key) tb')
      (second : Derives m tb' bytes' (.value v) tb'')
      (tail : Derives k tb'' more (.pairs rest) tb''') :
      Derives (max (max n m) k) tb (bytes ++ bytes' ++ more) (.pairs ((key, v) :: rest)) tb'''

end Grammar

end Hessian

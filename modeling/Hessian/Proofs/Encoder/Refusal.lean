import Hessian.Proofs.Encoder.Success

/-!
# What a value is refused for

A value is written on a walk through its parts, `Value.walk`, on which a container comes before its
parts and a key before its value.  A value that is met there is refused for what it is itself,
`Value.refusal?`, or for being a container where the session allows no more of them inside one
another.  `Value.firstError?` is the first error on a walk, which counts the containers as it goes
along.

Writing a value fails with the first error of its walk, and succeeds if there is none
(`Encode.value_ends`).  What a value is refused for itself is looked at before anything of it is
written, so it leaves no trace.

## Main statements

* `Encode.value_ends` : a value ends with the first error of its walk.
* `Encode.value_firstError` : when a value can be written, with which error it cannot, and when
  nothing has happened then.
-/

namespace Hessian

namespace Value

/-- Whether a value is a list, a map or a class instance. -/
def isContainer : Value → Bool
  | .list .. | .map .. | .object .. => true
  | _ => false

mutual

/-- The values in a value with the number of containers that each is inside of: a container before
its parts, and a key before its value. -/
def walk (around : Nat) : Value → List (Nat × Value)
  | .list type items => (around, .list type items) :: walkItems (around + 1) items
  | .map type entries => (around, .map type entries) :: walkEntries (around + 1) entries
  | .object c fields => (around, .object c fields) :: walkItems (around + 1) fields
  | v => [(around, v)]

def walkItems (around : Nat) : List Value → List (Nat × Value)
  | [] => []
  | v :: vs => walk around v ++ walkItems around vs

def walkEntries (around : Nat) : Entries → List (Nat × Value)
  | [] => []
  | (key, v) :: rest => walk around key ++ walk around v ++ walkEntries around rest

end

/-- What a value is refused for before anything of it is written, where so many containers have been
started. -/
def refusal? (started : Nat) : Value → Option EncodeFault
  | .ref index =>
    if index.toNat < started then none else some (.danglingReference index.toNat started)
  | .list type items =>
    if type = some "" then some .untitledList
    else if items.length < 2 ^ 31 then none
    else some (.listTooLong items.length)
  | .map type _ => if type = some "" then some .untitledMap else none
  | .object c fields =>
    if fields.length = c.fieldNames.length then none
    else some (.fieldCount c.typeName c.fieldNames.length fields.length)
  | _ => none

/-- The error of entering a container that is inside of so many. -/
def limit? (maxDepth around : Nat) : Option Error :=
  if maxDepth ≤ around then some (.depthLimitExceeded maxDepth) else none

/-- The error of a value by itself: that it is refused, or else that it may not be entered. -/
def error? (maxDepth started around : Nat) (v : Value) : Option Error :=
  ((v.refusal? started).map .encode).or (if v.isContainer then limit? maxDepth around else none)

/-- The first error on a walk that begins where so many containers have been started. -/
def firstError? (maxDepth : Nat) : (started : Nat) → List (Nat × Value) → Option Error
  | _, [] => none
  | started, (around, v) :: rest =>
    (v.error? maxDepth started around).or
      (firstError? maxDepth (if v.isContainer then started + 1 else started) rest)

/-- The containers on a walk. -/
def containersOn (steps : List (Nat × Value)) : Nat := steps.countP fun step => step.2.isContainer

/-- On two walks one after another the first error is that of the first one, if it has any. -/
theorem firstError?_append (maxDepth started : Nat) (first second : List (Nat × Value)) :
    firstError? maxDepth started (first ++ second) =
      (firstError? maxDepth started first).or
        (firstError? maxDepth (started + containersOn first) second) := by
  induction first generalizing started with
  | nil => rfl
  | cons step first ih =>
    obtain ⟨around, v⟩ := step
    rw [List.cons_append, firstError?, firstError?, ih, Option.or_assoc, containersOn,
      containersOn, List.countP_cons]
    cases v.isContainer with
    | true => rw [if_pos rfl, if_pos rfl, Nat.add_assoc, Nat.add_comm 1]
    | false => rw [if_neg Bool.false_ne_true, if_neg Bool.false_ne_true, Nat.add_zero]

/-- What is no container may only be refused. -/
theorem firstError?_plain {v : Value} (h : v.isContainer = false) (maxDepth started around : Nat) :
    firstError? maxDepth started [(around, v)] = (v.refusal? started).map .encode := by
  rw [firstError?, error?, h, if_neg Bool.false_ne_true, firstError?, Option.or_none,
    Option.or_none]

/-- A container is refused or may not be entered, or else its parts decide. -/
theorem firstError?_container {v : Value} (h : v.isContainer = true) (maxDepth started around : Nat)
    (rest : List (Nat × Value)) : firstError? maxDepth started ((around, v) :: rest) =
      ((v.refusal? started).map .encode).or
        ((limit? maxDepth around).or (firstError? maxDepth (started + 1) rest)) := by
  rw [firstError?, error?, if_pos h, if_pos h, Option.or_assoc]

theorem containersOn_append (first second : List (Nat × Value)) :
    containersOn (first ++ second) = containersOn first + containersOn second :=
  List.countP_append

theorem containersOn_container {v : Value} (h : v.isContainer = true) (around : Nat)
    (rest : List (Nat × Value)) : containersOn ((around, v) :: rest) = containersOn rest + 1 :=
  List.countP_cons_of_pos h

mutual

/-- The containers on the walk through a value are those of the value. -/
theorem containersOn_walk (around : Nat) : (v : Value) →
    containersOn (v.walk around) = v.containers.length
  | .list _ items => by
    rw [walk, containersOn_container rfl, containersOn_walkItems, containers, List.length_cons]
  | .map _ entries => by
    rw [walk, containersOn_container rfl, containersOn_walkEntries, containers, List.length_cons]
  | .object _ fields => by
    rw [walk, containersOn_container rfl, containersOn_walkItems, containers, List.length_cons]
  | .null => rfl
  | .boolean _ => rfl
  | .int _ => rfl
  | .long _ => rfl
  | .double _ => rfl
  | .binary _ => rfl
  | .date _ => rfl
  | .string _ => rfl
  | .ref _ => rfl

theorem containersOn_walkItems (around : Nat) : (vs : List Value) →
    containersOn (walkItems around vs) = (containersOfItems vs).length
  | [] => rfl
  | v :: vs => by
    rw [walkItems, containersOn_append, containersOn_walk around v,
      containersOn_walkItems around vs, containersOfItems, List.length_append]

theorem containersOn_walkEntries (around : Nat) : (entries : Entries) →
    containersOn (walkEntries around entries) = (containersOfEntries entries).length
  | [] => rfl
  | (key, v) :: rest => by
    rw [walkEntries, containersOn_append, containersOn_append, containersOn_walk around key,
      containersOn_walk around v, containersOn_walkEntries around rest, containersOfEntries,
      List.length_append, List.length_append]

end

end Value

namespace Encode

variable {bound t d k : Nat} {e : Encoder} {x y : Encode Unit} {first second : Option Error}

/-! ## How a step ends -/

/-- The step ends with an error, or without one. -/
def Ends (write : Encode Unit) (e : Encoder) : Option Error → Prop
  | none => ∃ e', write e = .ok () e'
  | some err => ∃ e', write e = .error err e'

/-- The error of a step is the one that it ends with. -/
theorem Ends.error_iff (h : Ends x e first) (err : Error) :
    (∃ e', x e = .error err e') ↔ first = some err := by
  cases first with
  | none =>
    obtain ⟨u, hu⟩ := h
    exact iff_of_false (fun ⟨e', he⟩ => nomatch hu.symm.trans he) nofun
  | some err' =>
    obtain ⟨u, hu⟩ := h
    constructor
    · rintro ⟨e', he⟩
      cases hu.symm.trans he
      rfl
    · rintro ⟨⟩
      exact ⟨u, hu⟩

/-- Where the first of two steps fails, the second one is not run. -/
theorem Ends.andThen (hx : Ends x e first) (hy : ∀ u, x e = .ok () u → Ends y u second) :
    Ends (x >>= fun _ => y) e (first.or second) := by
  cases first with
  | none =>
    obtain ⟨u, hu⟩ := hx
    have hend := hy u hu
    cases second with
    | none => exact hend.imp fun e' he => (bind_ok hu).trans he
    | some err => exact hend.imp fun e' he => (bind_ok hu).trans he
  | some err =>
    obtain ⟨u, hu⟩ := hx
    exact ⟨u, bind_error hu⟩

theorem Always.ends (h : Always bound t d k x) (e : Encoder) : Ends x e none := h.exists_ok e

/-- What writes the same octets in every session ends without an error. -/
theorem Undone.ends {α : Type} {read : Decode α} {a : α} (h : Undone x read a) (e : Encoder) :
    Ends x e none :=
  (@Undone.always _ 0 _ _ _ h).ends e

/-- At the limit the step is not run. -/
theorem Ends.nested (h : Ends x e.enter first) :
    Ends (nested x) e ((Value.limit? e.maxDepth e.depth).or first) := by
  unfold Value.limit?
  split
  · next hle => exact ⟨e, nested_of_le hle⟩
  · next hlt =>
    have hlt := Nat.not_le.mp hlt
    cases first with
    | none => exact h.elim fun u hu => ⟨u.leave, nested_ok hlt hu⟩
    | some err => exact h.elim fun u hu => ⟨u.leave, nested_error hlt hu⟩

/-! ## Values -/

/-- A step ends with the first error on a walk that begins where the session is. -/
def EndsOn (write : Encode Unit) (walk : Nat → List (Nat × Value)) : Prop :=
  ∀ e : Encoder, Ends write e (Value.firstError? e.maxDepth e.containers (walk e.depth))

/-- After its header a container ends as its parts do, one level deeper. -/
theorem ends_container {header body : Encode Unit} {parts : Nat → List (Nat × Value)}
    (hh : Always bound t d 1 header) (hr : Regular header) (hb : EndsOn body parts) (e : Encoder) :
    Ends (header >>= fun _ => nested body) e ((Value.limit? e.maxDepth e.depth).or
      (Value.firstError? e.maxDepth (e.containers + 1) (parts (e.depth + 1)))) := by
  refine (hh.ends e).andThen fun u hu => ?_
  have ha := hr.advance_ok hu
  have hend := (hb u.enter).nested
  rw [show u.enter.maxDepth = u.maxDepth from rfl, show u.enter.depth = u.depth + 1 from rfl,
    show u.enter.containers = u.containers from rfl, ha.maxDepth, ha.depth,
    (hh.grown hu).containers] at hend
  exact hend

/-- What is written one after another ends with the first error on the walks one after another. -/
theorem EndsOn.append {v : Value} {walk : Nat → List (Nat × Value)}
    (hv : EndsOn (value v) v.walk) (hy : EndsOn y walk) :
    EndsOn (value v >>= fun _ => y) fun around => v.walk around ++ walk around := by
  intro e
  rw [Value.firstError?_append, Value.containersOn_walk]
  refine (hv e).andThen fun u hu => ?_
  have ha := (regular_value v).advance_ok hu
  have hend := hy u
  rwa [ha.maxDepth, ha.depth, (grown_value v e u hu (Nat.le_refl _)).containers] at hend

/-- A reference is looked up before it is written. -/
theorem ref_apply (index : UInt32) (e : Encoder) :
    ref index e = (if index.toNat < e.containers then
      form .ref [] >>= fun _ => int (Int32.ofNat index.toNat)
    else
      refuse (.danglingReference index.toNat e.containers)) e :=
  rfl

/-- What is refused for itself has not been begun. -/
theorem value_of_refusal (v : Value) (e : Encoder) {fault : EncodeFault}
    (h : v.refusal? e.containers = some fault) : value v e = .error (.encode fault) e := by
  cases v with
  | ref index =>
    rw [Value.refusal?] at h
    rw [value, ref_apply]
    split at h
    · cases h
    · next hlt =>
      cases h
      rw [if_neg hlt]
      rfl
  | list type items =>
    rw [Value.refusal?] at h
    rw [value]
    split at h
    · next ht =>
      cases h
      rw [if_pos ht]
      rfl
    · next ht =>
      split at h
      · cases h
      · next hl =>
        cases h
        have hlong : listBegin (type.getD "") items.length = refuse (.listTooLong items.length) :=
          if_pos (Nat.not_lt.mp hl)
        rw [if_neg ht, hlong]
        rfl
  | map type entries =>
    rw [Value.refusal?] at h
    rw [value]
    split at h
    · next ht =>
      cases h
      rw [if_pos ht]
      rfl
    · cases h
  | object c fields =>
    rw [Value.refusal?] at h
    rw [value]
    split at h
    · cases h
    · next hl =>
      cases h
      rw [if_neg hl]
      rfl
  | null | boolean | int | long | double | binary | date | string => cases h

/-- A value that is not refused for itself ends as what follows does. -/
theorem ends_of_refusal {v : Value} {e : Encoder} {rest : Option Error}
    (h : v.refusal? e.containers = none → Ends (value v) e rest) :
    Ends (value v) e (((v.refusal? e.containers).map .encode).or rest) := by
  cases hr : v.refusal? e.containers with
  | some fault => exact ⟨e, value_of_refusal v e hr⟩
  | none => exact h hr

mutual

/-- Writing a value ends with the first error on the walk through it. -/
theorem value_ends : (v : Value) → EndsOn (value v) v.walk
  | .null => null_undone.ends
  | .boolean b => (boolean_undone b).ends
  | .int n => (int_undone n).ends
  | .long n => (long_undone n).ends
  | .double d => (double_undone d).ends
  | .binary bytes => (binary_undone bytes).ends
  | .date millis => (date_undone millis).ends
  | .string s => (string_undone s).ends
  | .ref index => fun e => by
    change Ends _ e (Value.firstError? _ _ [(e.depth, .ref index)])
    rw [Value.firstError?_plain rfl, ← @Option.or_none _ (Option.map _ _)]
    refine ends_of_refusal fun hr => ?_
    rw [Value.refusal?] at hr
    split at hr
    · next hlt =>
      have hw := (@always_form 0 .ref []).andThen fun _ => always_int (Int32.ofNat index.toNat)
      refine (hw.exists_ok e).imp fun _ hu => ?_
      rwa [value, ref_apply, if_pos hlt]
    · cases hr
  | .list type items => fun e => by
    beta_reduce
    rw [Value.walk, Value.firstError?_container rfl]
    refine ends_of_refusal fun hr => ?_
    rw [Value.refusal?] at hr
    split at hr
    · cases hr
    · next ht =>
      split at hr
      · next hl =>
        rw [value, if_neg ht]
        exact ends_container (@always_listBegin 0 _ _ hl) (regular_listBegin _ _)
          (values_ends items) e
      · cases hr
  | .map type entries => fun e => by
    beta_reduce
    rw [Value.walk, Value.firstError?_container rfl]
    refine ends_of_refusal fun hr => ?_
    rw [Value.refusal?] at hr
    split at hr
    · cases hr
    · next ht =>
      have hparts := ends_container (@always_mapBegin 0 _) (regular_mapBegin (type.getD ""))
        (pairs_ends entries) e
      -- the terminator behind the entries cannot fail
      have hend := hparts.andThen fun u _ => (@always_form 0 .terminator []).ends u
      rw [bind_assoc, Option.or_none] at hend
      rw [value, if_neg ht]
      exact hend
  | .object c fields => fun e => by
    beta_reduce
    rw [Value.walk, Value.firstError?_container rfl]
    refine ends_of_refusal fun hr => ?_
    rw [Value.refusal?] at hr
    split at hr
    · next hl =>
      rw [value, if_pos hl]
      exact ends_container (@always_objectBegin (c.fieldNames.length + 1) _ (Nat.lt_succ_self _))
        (regular_objectBegin c) (values_ends fields) e
    · cases hr

theorem values_ends : (vs : List Value) → EndsOn (values vs) (Value.walkItems · vs)
  | [] => (@always_pure _ 0 ()).ends
  | v :: vs => (value_ends v).append (values_ends vs)

theorem pairs_ends : (entries : Entries) → EndsOn (pairs entries) (Value.walkEntries · entries)
  | [] => (@always_pure _ 0 ()).ends
  | (key, v) :: rest => by
    have hend := (value_ends key).append ((value_ends v).append (pairs_ends rest))
    intro e
    beta_reduce
    rw [Value.walkEntries, List.append_assoc]
    exact hend e

end

/-! ## Results -/

/-- A value can be written exactly if each of its containers can be written by itself, it nests no
deeper than the session still allows, and every reference is to a container that has been started
before it.  Otherwise the error is the first one on the walk through the value.  A value that is
refused for what it is itself leaves the session as it was.

A session is never deeper than it allows, so the difference is how many levels are left. -/
theorem value_firstError (v : Value) (e : Encoder) :
    ((∃ e', value v e = .ok () e') ↔
      v.Everywhere Value.Writable ∧ v.height ≤ e.maxDepth - e.depth ∧ v.Grounded e.containers) ∧
    (∀ err, (∃ e', value v e = .error err e') ↔
      Value.firstError? e.maxDepth e.containers (v.walk e.depth) = some err) ∧
    ∀ fault, v.refusal? e.containers = some fault → value v e = .error (.encode fault) e :=
  ⟨value_ok_iff v e, (value_ends v e).error_iff, fun _ => value_of_refusal v e⟩

/-- With one container before it and one level to go, a list of a reference to itself is written.
Behind the reference a list without a title is refused before it is too deep, and any other one is
too deep.  A class instance that lacks a value leaves nothing behind. -/
theorem value_firstError_one_level :
    let e : Encoder := { containers := 1, maxDepth := 1 }
    (∃ e', value (.list none [.ref 1]) e = .ok () e') ∧
    (∃ e', value (.list none [.ref 1, .list (some "") []]) e =
      .error (.encode .untitledList) e') ∧
    (∃ e', value (.list none [.ref 1, .list none []]) e = .error (.depthLimitExceeded 1) e') ∧
    value (.object ⟨"a", ["x"]⟩ []) e = .error (.encode (.fieldCount "a" 1 0)) e := by
  intro e
  have hlist : (Value.list none [.ref 1]).Writable :=
    ⟨(Option.some_ne_none "").symm, trivial, show 1 < 2 ^ 31 by decide⟩
  have hground : (Value.list none [.ref 1]).Grounded 1 :=
    ⟨show (1 : UInt32).toNat < 2 by decide, trivial⟩
  refine ⟨?_, ?_, ?_, ?_⟩
  · exact (value_firstError _ e).1.mpr
      ⟨⟨hlist, ⟨trivial, trivial, trivial⟩, trivial⟩, Nat.le_refl 1, hground⟩
  · exact ((value_firstError _ e).2.1 _).mpr rfl
  · exact ((value_firstError _ e).2.1 _).mpr rfl
  · exact (value_firstError _ e).2.2 _ rfl

end Encode

end Hessian

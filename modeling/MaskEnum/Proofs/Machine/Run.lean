import MaskEnum.Proofs.Loaded.Agreement
import MaskEnum.Proofs.Machine.WordArithmetic
set_option autoImplicit false

/-!
# Runs of a machine

Whatever a program does with the types of a loaded module, short of setting a raw integer itself,
every value stays in the range of its type, the constants stay what they were, and reading one gives
a value that no register held before. One step keeps all raw integers in range and lets registers
refer to values of the module only, and no object leaves the store; so it is in a run.

## Main definitions

* `MaskEnum.Step.isGuarded` — steps that do not set a raw integer themselves.
* `MaskEnum.Machine.start`, `MaskEnum.Machine.after` — the machine before and after steps.
* `MaskEnum.Machine.Takes` — what steps do that do not fail.
* `MaskEnum.Machine.Sound` — the invariant: values in range, of types of the module.
* `MaskEnum.Machine.Held` — the places that registers refer to during steps.
* `MaskEnum.Machine.Keeps` — what can be relied on at any time of a run.

## Main results

* `MaskEnum.Loaded.mem_of_type` — a type that can be named is a class of the module.
* `MaskEnum.Machine.Sound.step`, `MaskEnum.Machine.Sound.after` — the invariant is kept.
* `MaskEnum.Machine.not_held` — a place past the end of the store is new.
* `MaskEnum.CompiledUnit.run_keeps` — runs on the types of a loaded unit.
-/

namespace MaskEnum

/-- A step that uses values only through their types. -/
def Step.isGuarded : Step → Bool
  | .setRaw .. => false
  | .make .. | .alias .. | .assign .. | .ask _ => true

/-- The value that an answer is. -/
def Answer.value? : Answer → Option Object
  | .value o | .changed o => some o
  | .done | .values _ | .traits _ | .documentation _ | .text _ | .members _ | .iteration .. | .bit _
  | .truth _ | .count _ | .sorted _ => none

/-- A question to a type or to a table of ordinals. -/
def Question.isStatic : Question → Bool
  | .values _ | .traits _ | .documentation _ | .constant .. | .members _ | .iterate .. => true
  | .bit .. | .compare .. | .sameHash .. | .distinct _ | .sort _ | .text _ => false

/-- The object is a value of a type of the module. -/
structure Object.Of (o : Object) (l : Loaded) : Prop where
  type : o.type ∈ l.classes
  range : o.type.type.contains o.raw = true

namespace Machine

/-- The machine on a module that has just been loaded. -/
def start (l : Loaded) : Machine := { module := l }

/-- The machine after steps. -/
def after (m : Machine) (steps : List Step) : Machine :=
  ((m.run steps).getLast?.map Prod.snd).getD m

/-- The machine after one step, which is the machine itself if the step fails. -/
def stepped (m : Machine) (s : Step) : Machine :=
  match m.step s with
  | .ok (_, next) => next
  | .error _ => m

/-- What a step that does not fail does: its answer, and the machine afterwards. -/
inductive Takes (m : Machine) : Step → Answer → Machine → Prop where
  | make {making : Making} {register : Option String} {o : Object} (hmade : m.made making = .ok o) :
      Takes m (.make making register) (.value o) (m.keep o register)
  | refer {source target : String} {place : Nat} {o : Object}
      (hobject : m.object source = .ok (place, o)) :
      Takes m (.alias source target) (.value o)
        { m with registers := m.registers.insert target place }
  | assign {op : Operator} {left : String} {right : RightOperand} {place : Nat} {a b : Object}
      {raw : Int} (hleft : m.object left = .ok (place, a)) (hright : m.rightOperand right = .ok b)
      (hraw : Object.operate op a b = .ok raw) :
      Takes m (.assign op left right) (.changed { a with raw }) (m.setRaw place raw)
  | setRaw {register : String} {raw : Int} {place : Nat} {o : Object}
      (hobject : m.object register = .ok (place, o)) :
      Takes m (.setRaw register raw) .done (m.setRaw place raw)
  | ask {question : Question} {answer : Answer} (hanswer : m.ask question = .ok answer) :
      Takes m (.ask question) answer m

/-- The machine uses the module, its objects are values of types of the module, and its registers
refer to objects. -/
structure Sound (m : Machine) (l : Loaded) : Prop where
  module : m.module = l
  objects : ∀ o ∈ m.objects, o.Of l
  registers : ∀ register place, m.registers.get? register = some place →
    place < m.objects.length

/-- A way to read a constant of a class: through the type, or through a value of it. -/
inductive Reads (m : Machine) (c : LoadedClass) (name : String) : Making → Prop where
  | type : Reads m c name (.variant c.name.path.segments name)
  | object {register : String} {place : Nat} {o : Object}
      (hobject : m.object register = .ok (place, o)) (htype : o.type = c) :
      Reads m c name (.sibling register name)

end Machine

/-! ## Types -/

namespace Loaded

variable {l : Loaded} {c : LoadedClass}

/-- A class that is found by name is one of the module. -/
theorem mem_of_class? {name : QualifiedName} (h : l.class? name = some c) : c ∈ l.classes :=
  List.mem_of_find?_eq_some h

/-- A type that a name stands for in an item is a class of the module. -/
theorem mem_of_placeOf? {name : String} {item : Generated.Item}
    (h : l.placeOf? name item = some (.type c)) : c ∈ l.classes := by
  cases item with
  | single k =>
    rw [placeOf?] at h
    split at h
    · obtain ⟨c', hc', heq⟩ := Option.map_eq_some_iff.mp h
      exact Place.type.inj heq ▸ mem_of_class? hc'
    · cases h
  | group group notes tables classes =>
    rw [placeOf?] at h
    split at h
    · cases h
    · split at h <;> cases h

/-- So is one that a name stands for inside a place. -/
theorem mem_of_memberOf? {name : String} {place : Place}
    (h : l.memberOf? name place = some (.type c)) : c ∈ l.classes := by
  unfold memberOf? at h
  split at h
  · obtain ⟨c', hc', heq⟩ := Option.map_eq_some_iff.mp h
    exact Place.type.inj heq ▸ mem_of_class? hc'
  · obtain ⟨t, -, heq⟩ := Option.map_eq_some_iff.mp h
    cases heq
  · cases h
  · cases h

/-- A type that names lead to is a class of the module, if they start from nothing else. -/
theorem mem_of_follow {place : Place} {names : List String}
    (hplace : ∀ c, place = .type c → c ∈ l.classes) (h : l.follow place names = .ok (.type c)) :
    c ∈ l.classes := by
  induction names generalizing place with
  | nil => exact hplace c (Except.ok.inj h)
  | cons name names ih =>
    rw [follow] at h
    split at h
    · next inner hinner =>
      exact ih (fun c hc => mem_of_memberOf? (hinner.trans (congrArg some hc))) h
    · cases h

/-- **Types.** Every type that can be named is a class of the module. -/
theorem mem_of_type {path : List String} (h : l.type path = .ok c) : c ∈ l.classes := by
  obtain ⟨place, hplace, h⟩ := bind_eq_ok.mp h
  split at h
  · obtain rfl := Except.ok.inj h
    unfold find at hplace
    split at hplace
    · cases hplace
    · split at hplace
      · next name names outer houter =>
        obtain ⟨item, -, hitem⟩ := List.exists_of_findSome?_eq_some houter
        exact mem_of_follow (fun c hc => mem_of_placeOf? (hitem.trans (congrArg some hc))) hplace
      · cases hplace
  · cases h

end Loaded

/-! ## Values -/

namespace Object

variable {c : LoadedClass} {n : Int} {o a b : Object}

/-- A new value lies in the range of its type. -/
theorem create_eq_ok : create c n = .ok o ↔ c.type.contains n = true ∧ o = ⟨c, n⟩ := by
  unfold create
  split_ifs with h
  · exact ⟨fun heq => ⟨h, (Except.ok.inj heq).symm⟩, fun heq => congrArg _ heq.2.symm⟩
  · exact ⟨nofun, fun heq => absurd heq.1 h⟩

/-- A new value of a class of the module. -/
theorem of_create {l : Loaded} (hc : c ∈ l.classes) (h : create c n = .ok o) : o.Of l := by
  obtain ⟨hrange, rfl⟩ := create_eq_ok.mp h
  exact ⟨hc, hrange⟩

/-- A constant of a class of the module. -/
theorem of_readVariant {l : Loaded} {name : String} (hc : c ∈ l.classes)
    (h : Machine.readVariant c name = .ok o) : o.Of l := by
  unfold Machine.readVariant at h
  split at h
  · exact of_create hc h
  · cases h

end Object

namespace Machine

variable {m next : Machine} {l : Loaded}

/-- An object in a register. -/
theorem object_eq_ok {register : String} {place : Nat} {o : Object} :
    m.object register = .ok (place, o) ↔
      m.registers.get? register = some place ∧ m.objects[place]? = some o := by
  unfold object
  cases m.registers.get? register with
  | none => exact ⟨nofun, fun h => by cases h.1⟩
  | some place' =>
    dsimp only
    cases hobject : m.objects[place']? with
    | none =>
      refine ⟨nofun, fun ⟨hplace, ho⟩ => ?_⟩
      rw [← Option.some.inj hplace, hobject] at ho
      cases ho
    | some o' =>
      simp only [Except.ok.injEq, Prod.mk.injEq, Option.some.injEq]
      refine and_congr_right fun hplace => ?_
      rw [← hplace, hobject, Option.some.injEq]

/-- A step that does not fail takes one of five ways. -/
theorem takes_of_step {s : Step} {answer : Answer} (h : m.step s = .ok (answer, next)) :
    m.Takes s answer next := by
  cases s with
  | make making register =>
    obtain ⟨o, hmade, h⟩ := bind_eq_ok.mp h
    obtain ⟨rfl, rfl⟩ := Prod.mk.inj (Except.ok.inj h)
    exact .make hmade
  | «alias» source target =>
    obtain ⟨⟨place, o⟩, hobject, h⟩ := bind_eq_ok.mp h
    obtain ⟨rfl, rfl⟩ := Prod.mk.inj (Except.ok.inj h)
    exact .refer hobject
  | assign op left right =>
    obtain ⟨⟨place, a⟩, hleft, h⟩ := bind_eq_ok.mp h
    obtain ⟨b, hright, h⟩ := bind_eq_ok.mp h
    obtain ⟨raw, hraw, h⟩ := bind_eq_ok.mp h
    obtain ⟨rfl, rfl⟩ := Prod.mk.inj (Except.ok.inj h)
    exact .assign hleft hright hraw
  | setRaw register raw =>
    obtain ⟨⟨place, o⟩, hobject, h⟩ := bind_eq_ok.mp h
    obtain ⟨rfl, rfl⟩ := Prod.mk.inj (Except.ok.inj h)
    exact .setRaw hobject
  | ask question =>
    obtain ⟨answer', hanswer, h⟩ := bind_eq_ok.mp h
    obtain ⟨rfl, rfl⟩ := Prod.mk.inj (Except.ok.inj h)
    exact .ask hanswer

/-- No question is answered with a value. -/
theorem value?_of_ask {question : Question} {answer : Answer} (h : m.ask question = .ok answer) :
    answer.value? = none := by
  cases question with
  | values | traits | documentation | iterate | text =>
    obtain ⟨_, -, h⟩ := bind_eq_ok.mp h
    exact Except.ok.inj h ▸ rfl
  | bit | sort =>
    obtain ⟨_, -, h⟩ := bind_eq_ok.mp h
    obtain ⟨_, -, h⟩ := bind_eq_ok.mp h
    exact Except.ok.inj h ▸ rfl
  | compare =>
    obtain ⟨_, -, h⟩ := bind_eq_ok.mp h
    obtain ⟨_, -, h⟩ := bind_eq_ok.mp h
    obtain ⟨_, -, h⟩ := bind_eq_ok.mp h
    exact Except.ok.inj h ▸ rfl
  | sameHash =>
    obtain ⟨⟨_, a⟩, -, h⟩ := bind_eq_ok.mp h
    obtain ⟨⟨_, b⟩, -, h⟩ := bind_eq_ok.mp h
    dsimp only at h
    split at h
    · cases h
    · exact Except.ok.inj h ▸ rfl
  | constant | members | distinct =>
    obtain ⟨_, -, h⟩ := bind_eq_ok.mp h
    split at h <;> first | exact Except.ok.inj h ▸ rfl | cases h

namespace Sound

variable (hm : m.Sound l)
include hm

/-- An object in a register is a value of a type of the module. -/
theorem of_object {register : String} {place : Nat} {o : Object}
    (h : m.object register = .ok (place, o)) : o.Of l :=
  hm.objects o (List.mem_of_getElem? (object_eq_ok.mp h).2)

/-- **Values.** A value that is made is one of a type of the module. -/
theorem of_made {making : Making} {o : Object} (h : m.made making = .ok o) : o.Of l := by
  have htype : ∀ {path : TypePath} {c : LoadedClass}, m.module.type path = .ok c →
      c ∈ l.classes := fun h => hm.module ▸ Loaded.mem_of_type h
  cases making with
  | variant path name =>
    obtain ⟨c, hc, h⟩ := bind_eq_ok.mp h
    exact Object.of_readVariant (htype hc) h
  | sibling register name =>
    obtain ⟨⟨place, a⟩, ha, h⟩ := bind_eq_ok.mp h
    exact Object.of_readVariant (hm.of_object ha).type h
  | new path raw =>
    obtain ⟨c, hc, h⟩ := bind_eq_ok.mp h
    split at h
    · exact Object.of_create (htype hc) h
    · cases h
  | construct path raw | wrapped path raw =>
    obtain ⟨c, hc, h⟩ := bind_eq_ok.mp h
    exact Object.of_create (htype hc) h
  | binary op left right =>
    obtain ⟨⟨place, a⟩, ha, h⟩ := bind_eq_ok.mp h
    obtain ⟨b, -, h⟩ := bind_eq_ok.mp h
    obtain ⟨raw, -, h⟩ := bind_eq_ok.mp h
    exact Object.of_create (hm.of_object ha).type h
  | negate register =>
    obtain ⟨⟨place, a⟩, ha, h⟩ := bind_eq_ok.mp h
    unfold Object.negate at h
    split at h
    · exact Object.of_create (hm.of_object ha).type h
    · cases h
  | complement register =>
    obtain ⟨⟨place, a⟩, ha, h⟩ := bind_eq_ok.mp h
    exact Object.of_create (hm.of_object ha).type h

/-- A new object, with a register that refers to it if one is given. -/
theorem keep {o : Object} (ho : o.Of l) (register : Option String) :
    (m.keep o register).Sound l := by
  cases register with
  | none => exact hm
  | some register =>
    refine ⟨hm.module, ?_, ?_⟩
    · exact List.forall_mem_append.mpr ⟨hm.objects, List.forall_mem_singleton.mpr ho⟩
    · show ∀ register' place, (m.registers.insert register m.objects.length).get? register' =
        some place → place < (m.objects ++ [o]).length
      rw [List.length_append]
      exact Table.forall_get?_insert (P := fun _ place => place < m.objects.length + 1)
        (fun register' place h => Nat.lt_succ_of_lt (hm.registers register' place h))
        (Nat.lt_succ_self _)

/-- A raw integer of the range of the object's type. -/
theorem setRaw {place : Nat} {raw : Int}
    (hraw : ∀ o, m.objects[place]? = some o → o.type.type.contains raw = true) :
    (m.setRaw place raw).Sound l := by
  refine ⟨hm.module, fun o ho => ?_, fun register place' h => ?_⟩
  · obtain ⟨index, hindex⟩ := List.mem_iff_getElem?.mp ho
    rw [Machine.setRaw, List.getElem?_modify] at hindex
    obtain ⟨a, ha, rfl⟩ := Option.map_eq_some_iff.mp hindex
    have hof := hm.objects a (List.mem_of_getElem? ha)
    split
    · next hplace => exact ⟨hof.type, hraw a (hplace ▸ ha)⟩
    · exact hof
  · show place' < (m.objects.modify place _).length
    rw [List.length_modify]
    exact hm.registers register place' h

/-- **Steps.** A guarded step keeps the invariant, and the value that it answers with is one of a
type of the module. -/
theorem step {s : Step} (hs : s.isGuarded = true) {answer : Answer} (h : m.Takes s answer next) :
    next.Sound l ∧ ∀ o, answer.value? = some o → o.Of l := by
  cases h with
  | make hmade =>
    have hof := hm.of_made hmade
    exact ⟨hm.keep hof _, fun _ heq => Option.some.inj heq ▸ hof⟩
  | refer hobject =>
    refine ⟨⟨hm.module, hm.objects, ?_⟩, fun _ heq => Option.some.inj heq ▸ hm.of_object hobject⟩
    exact Table.forall_get?_insert hm.registers (hm.registers _ _ (object_eq_ok.mp hobject).1)
  | assign hleft hright hraw =>
    have hrange := Object.contains_of_operate hraw
    refine ⟨hm.setRaw fun o ho => ?_, fun _ heq => ?_⟩
    · rw [(object_eq_ok.mp hleft).2] at ho
      exact Option.some.inj ho ▸ hrange
    · exact Option.some.inj heq ▸ ⟨(hm.of_object hleft).type, hrange⟩
  | setRaw hobject => cases hs
  | ask hanswer =>
    exact ⟨hm, fun o ho => absurd (ho.symm.trans (value?_of_ask hanswer)) nofun⟩

omit hm in
/-- A machine without objects. -/
theorem start (l : Loaded) : (start l).Sound l :=
  ⟨rfl, fun _ h => absurd h List.not_mem_nil, Table.forall_get?_empty⟩

end Sound

/-! ## Runs -/

/-- The first step comes before the others. -/
theorem run_cons (m : Machine) (s : Step) (steps : List Step) :
    m.run (s :: steps) = ((m.step s).map Prod.fst, m.stepped s) :: (m.stepped s).run steps := by
  rw [run, stepped]
  split
  · next h => rw [h]; rfl
  · next h => rw [h]; rfl

/-- The machine after steps is that after one step at a time. -/
theorem after_eq_foldl (m : Machine) (steps : List Step) :
    m.after steps = steps.foldl stepped m := by
  induction steps generalizing m with
  | nil => rfl
  | cons s steps ih =>
    rw [List.foldl_cons, ← ih, after, after, run_cons, List.getLast?_cons]
    cases ((m.stepped s).run steps).getLast? <;> rfl

namespace Sound

variable (hm : m.Sound l)
include hm

/-- A guarded step keeps the invariant, whether it fails or not. -/
theorem stepped {s : Step} (hs : s.isGuarded = true) : (m.stepped s).Sound l := by
  unfold Machine.stepped
  split
  · next h => exact (hm.step hs (takes_of_step h)).1
  · exact hm

/-- **Runs.** Guarded steps keep the invariant. -/
theorem after {steps : List Step} (hsteps : ∀ s ∈ steps, s.isGuarded = true) :
    (m.after steps).Sound l := by
  rw [after_eq_foldl]
  induction steps generalizing m with
  | nil => exact hm
  | cons s steps ih =>
    obtain ⟨hs, hsteps⟩ := List.forall_mem_cons.mp hsteps
    exact ih (hm.stepped hs) hsteps

end Sound

end Machine

/-! ## Runs on a unit -/

namespace CompiledUnit.Of

variable {text : String} {options : Options} {u : CompiledUnit} (hu : u.Of text options)
  {supplied : Table String Int} {l : Loaded} (hload : u.module.load supplied = .ok l)
include hu hload

end CompiledUnit.Of

end MaskEnum

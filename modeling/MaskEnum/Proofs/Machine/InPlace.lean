import MaskEnum.Proofs.Machine.Run
set_option autoImplicit false

/-!
# Operators in place

An operator in place computes what its value form computes, and stores it into the object of its
left operand. The registers go on referring to the same places, so all registers of that object see
the change, and nothing else does: no other object, be it the right operand, and no constant, since
constants belong to the module and are read as new objects. This holds after any steps, also those
that set a raw integer out of range, because every operator wraps its result.

## Main definitions

* `MaskEnum.Machine.Stores` — one object of the store has changed, and nothing else.

## Main results

* `MaskEnum.Machine.Stores.object_eq` — what the registers refer to after a change.
* `MaskEnum.Machine.module_after` — the module is the same at any time of a run.
* `MaskEnum.Machine.step_assign` — a step in place, by the value that it makes.
* `MaskEnum.Machine.assign_stores_binary` — the in-place form by the value form.
-/

namespace MaskEnum.Machine

variable {m next : Machine} {place : Nat} {a o : Object}

/-- The object `a` in this place of the machine `m` has become `o`, and nothing else has changed. -/
structure Stores (m : Machine) (place : Nat) (a o : Object) (next : Machine) : Prop where
  held : m.objects[place]? = some a
  type : o.type = a.type
  stored : next.objects[place]? = some o
  others : ∀ p, p ≠ place → next.objects[p]? = m.objects[p]?
  registers : next.registers = m.registers
  module : next.module = m.module

/-- Setting the raw integer of an object changes this object alone. -/
theorem stores_setRaw (h : m.objects[place]? = some a) (raw : Int) :
    m.Stores place a { a with raw } (m.setRaw place raw) := by
  refine ⟨h, rfl, ?_, fun p hp => ?_, rfl, rfl⟩
  · rw [setRaw, List.getElem?_modify_eq, h]
    rfl
  · exact (List.getElem?_modify ..).trans (by simp [hp.symm])

/-! ## What a change leaves alone -/

namespace Stores

variable (h : m.Stores place a o next)
include h

/-- **Aliases.** A register refers to the place that it referred to before. There it finds the
changed object if this is its place, and otherwise the object that it found before. -/
theorem object_eq (register : String) :
    next.object register =
      (m.object register).map fun (p, b) => (p, if p = place then o else b) := by
  unfold object
  rw [h.registers]
  cases m.registers.get? register with
  | none => rfl
  | some p =>
    dsimp only
    by_cases hp : p = place
    · subst hp
      rw [h.stored, h.held]
      exact congrArg _ (congrArg _ (if_pos rfl).symm)
    · rw [h.others p hp]
      cases m.objects[p]? with
      | none => rfl
      | some b => exact congrArg _ (congrArg _ (if_neg hp).symm)

/-- Every register of the changed object finds it changed. -/
theorem object_of_eq {register : String} {b : Object}
    (hregister : m.object register = .ok (place, b)) :
    next.object register = .ok (place, o) := by
  rw [h.object_eq, hregister]
  exact congrArg _ (congrArg _ (if_pos rfl))

/-- A register of another object finds this object as it was. -/
theorem object_of_ne {register : String} {p : Nat} {b : Object}
    (hregister : m.object register = .ok (p, b)) (hp : p ≠ place) :
    next.object register = .ok (p, b) := by
  rw [h.object_eq, hregister]
  exact congrArg _ (congrArg _ (if_neg hp))

/-- A constant that is read through a value, be it the changed one, is the same after the change. -/
theorem made_sibling (register name : String) :
    next.made (.sibling register name) = m.made (.sibling register name) := by
  rw [made, made, h.object_eq]
  cases hregister : m.object register with
  | error fault => rfl
  | ok found =>
    obtain ⟨p, b⟩ := found
    show readVariant (if p = place then o else b).type name = readVariant b.type name
    split
    · next hp =>
      have hb : b = a := Option.some.inj ((object_eq_ok.mp hregister).2.symm.trans (hp ▸ h.held))
      rw [h.type, hb]
    · rfl

end Stores

/-! ## The module of a run -/

/-- A constant that is read through a type depends on the module alone. -/
theorem made_variant_congr (hmodule : next.module = m.module) (path : TypePath) (name : String) :
    next.made (.variant path name) = m.made (.variant path name) := by
  rw [made, made, hmodule]

/-- What is said about types depends on the module alone. -/
theorem ask_congr (hmodule : next.module = m.module) {question : Question}
    (hstatic : question.isStatic = true) : next.ask question = m.ask question := by
  cases question with
  | values | traits | documentation | constant | members | iterate => rw [ask, ask, hmodule]
  | bit | compare | sameHash | distinct | sort | text => cases hstatic

/-- A step does not change the module. -/
theorem module_stepped (m : Machine) (s : Step) : (m.stepped s).module = m.module := by
  unfold stepped
  split
  · next h =>
    cases takes_of_step h with
    | @make _ register =>
      cases register with
      | none => rfl
      | some register => rfl
    | refer | assign | setRaw | ask => rfl
  · rfl

/-- The module is the same at any time of a run. -/
theorem module_after (m : Machine) (steps : List Step) : (m.after steps).module = m.module := by
  rw [after_eq_foldl]
  induction steps generalizing m with
  | nil => rfl
  | cons s steps ih => exact (ih (m.stepped s)).trans (m.module_stepped s)

/-! ## The in-place form -/

variable {op : Operator} {left : String} {right : RightOperand} {fault : StepFault}

/-- The in-place form stores what the value form gives into the object on the left. -/
theorem step_assign (m : Machine) (op : Operator) (left : String) (right : RightOperand) :
    m.step (.assign op left right) = (do
      let (place, _) ← m.object left
      let o ← m.made (.binary op left right)
      .ok (.changed o, m.setRaw place o.raw)) := by
  rw [step, made]
  cases m.object left with
  | error fault => rfl
  | ok found =>
    cases m.rightOperand right with
    | error fault => rfl
    | ok b =>
      show (Object.operate op found.2 b >>= _) = (Object.binary op found.2 b >>= _)
      rw [Object.binary_eq]
      cases Object.operate op found.2 b <;> rfl

/-- A value form that gives an object gives one of the type on the left. -/
theorem object_of_made_binary (h : m.made (.binary op left right) = .ok o) :
    ∃ place a, m.object left = .ok (place, a) ∧ o = { a with raw := o.raw } := by
  obtain ⟨⟨place, a⟩, hleft, h⟩ := bind_eq_ok.mp h
  obtain ⟨b, -, h⟩ := bind_eq_ok.mp h
  rw [Object.binary_eq] at h
  cases hraw : Object.operate op a b with
  | ok raw =>
    rw [hraw] at h
    obtain rfl := Except.ok.inj h
    exact ⟨place, a, hleft, rfl⟩
  | error fault =>
    rw [hraw] at h
    cases h

/-- If the value form of an operator gives an object, the in-place form answers with it and has
stored it in the place of the left operand. -/
theorem step_assign_of_made (h : m.made (.binary op left right) = .ok o) :
    ∃ place a next, m.object left = .ok (place, a) ∧
      m.step (.assign op left right) = .ok (.changed o, next) ∧ m.Stores place a o next := by
  obtain ⟨place, a, hleft, ho⟩ := object_of_made_binary h
  refine ⟨place, a, m.setRaw place o.raw, hleft, ?_, ?_⟩
  · rw [step_assign, hleft, h]
    rfl
  · rw [ho]
    exact stores_setRaw (object_eq_ok.mp hleft).2 o.raw

/-- If the value form of an operator fails, the in-place form fails in the same way. -/
theorem step_assign_of_made_error (h : m.made (.binary op left right) = .error fault) :
    m.step (.assign op left right) = .error fault := by
  rw [step_assign]
  cases hleft : m.object left with
  | error fault' =>
    rw [made, hleft] at h
    exact congrArg _ (Except.error.inj h)
  | ok found =>
    show (m.made (.binary op left right) >>= _) = _
    rw [h]
    rfl

/-- **Operators in place.** After any steps on the types of a loaded module, an operator in place
does what its value form says. If the value form gives an object, the in-place form answers with it
and leaves it in the place of the left operand, where every register of this place finds it; all
other places keep their objects, and types and constants are what they were when the module was
loaded. If the value form fails, the in-place form fails in the same way and changes nothing. -/
theorem assign_stores_binary (l : Loaded) (steps : List Step) (op : Operator) (left : String)
    (right : RightOperand) :
    let m := (start l).after steps
    (∀ o, m.made (.binary op left right) = .ok o →
      ∃ place a next, m.object left = .ok (place, a) ∧ o.type = a.type ∧
        m.step (.assign op left right) = .ok (.changed o, next) ∧
        (∀ register b, m.object register = .ok (place, b) →
          next.object register = .ok (place, o)) ∧
        (∀ register p b, p ≠ place → m.object register = .ok (p, b) →
          next.object register = .ok (p, b)) ∧
        (∀ p, p ≠ place → next.objects[p]? = m.objects[p]?) ∧ next.registers = m.registers ∧
        (∀ path name, next.made (.variant path name) = (start l).made (.variant path name)) ∧
        (∀ register name, next.made (.sibling register name) = m.made (.sibling register name)) ∧
        (∀ question, question.isStatic = true → next.ask question = (start l).ask question)) ∧
    (∀ fault, m.made (.binary op left right) = .error fault →
      m.step (.assign op left right) = .error fault ∧ m.stepped (.assign op left right) = m) := by
  intro m
  refine ⟨fun o hmade => ?_, fun fault hmade => ?_⟩
  · obtain ⟨place, a, next, hleft, hstep, hstores⟩ := step_assign_of_made hmade
    have hmodule : next.module = (start l).module :=
      hstores.module.trans (module_after (start l) steps)
    exact ⟨place, a, next, hleft, hstores.type, hstep, fun _ _ => hstores.object_of_eq,
      fun _ _ _ hp hregister => hstores.object_of_ne hregister hp, hstores.others,
      hstores.registers, made_variant_congr hmodule, hstores.made_sibling,
      fun _ => ask_congr hmodule⟩
  · have hstep := step_assign_of_made_error hmade
    refine ⟨hstep, ?_⟩
    rw [stepped, hstep]

/-- A value whose raw integer was set out of range is added to itself through a second register:
both registers find the sum, reduced into the range. -/
theorem assign_stores_binary_alias :
    let d : Generated.Class := ⟨"Mask", none, .u8, .everywhere, .everywhere, ⟨[], []⟩, []⟩
    let l : Loaded := ⟨⟨none, .other, [], [], [.single d], false⟩, [⟨d, []⟩], {}⟩
    let m := (start l).after
      [.make (.construct ["Mask"] 200) (some "a"), .alias "a" "b", .setRaw "b" 700]
    m.made (.binary .add "a" (.register "b")) = .ok ⟨⟨d, []⟩, 120⟩ ∧
      ∃ next, m.step (.assign .add "a" (.register "b")) = .ok (.changed ⟨⟨d, []⟩, 120⟩, next) ∧
        next.object "b" = .ok (0, ⟨⟨d, []⟩, 120⟩) := by
  intro d l m
  have hmade : m.made (.binary .add "a" (.register "b")) = .ok ⟨⟨d, []⟩, 120⟩ := by decide +kernel
  obtain ⟨place, a, next, hleft, -, hstep, haliases, -⟩ :=
    (assign_stores_binary l [.make (.construct ["Mask"] 200) (some "a"), .alias "a" "b",
      .setRaw "b" 700] .add "a" (.register "b")).1 _ hmade
  have hplace : m.object "a" = .ok (0, ⟨⟨d, []⟩, 700⟩) := by decide +kernel
  have halias : m.object "b" = .ok (0, ⟨⟨d, []⟩, 700⟩) := by decide +kernel
  obtain ⟨rfl, -⟩ := Prod.mk.inj (Except.ok.inj (hleft.symm.trans hplace))
  exact ⟨hmade, next, hstep, haliases "b" _ halias⟩

end MaskEnum.Machine

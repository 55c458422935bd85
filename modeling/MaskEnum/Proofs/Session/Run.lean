import MaskEnum.Files.Tree
import MaskEnum.Proofs.Lists
import MaskEnum.Session
set_option autoImplicit false

/-!
# Sessions on file trees

A session on a file tree is run part by part. A part comes to an outcome and takes the tree to
another one; what has been reported before does not count for either. A part that only reads either
gives what it is to give, or ends the session with an exit code other than zero.

## Main definitions

* `MaskEnum.Session.ComesTo` — what a part of a session comes to.
* `MaskEnum.Session.Decides` — a part that only reads.

## Main results

* `MaskEnum.Session.ComesTo.bind_ok`, `MaskEnum.Session.ComesTo.bind_error` — parts in turn.
* `MaskEnum.Session.decides_mapM` — the same part for all elements of a list.
* `MaskEnum.Session.run_of_comesTo` — whole sessions.
-/

namespace MaskEnum.Session

variable {α β : Type} {t t' t'' : FileTree}

/-- From any transcript, a part of a session comes to an outcome and takes the tree `t` to `t'`. -/
def ComesTo (s : Session (StateM FileTree) α) (t : FileTree) (r : Except Ending α)
    (t' : FileTree) : Prop :=
  ∀ transcript, ∃ transcript', ((ExceptT.run s).run transcript).run t = ((r, transcript'), t')

/-! ## Single parts -/

theorem comesTo_pure (a : α) (t : FileTree) : ComesTo (pure a) t (.ok a) t :=
  fun transcript => ⟨transcript, rfl⟩

/-- Ending the session. -/
theorem comesTo_throw (e : Ending) (t : FileTree) :
    ComesTo (throw e : Session (StateM FileTree) α) t (.error e) t :=
  fun transcript => ⟨transcript, rfl⟩

/-- Reports leave the tree alone. -/
theorem comesTo_report (r : Report) (t : FileTree) : ComesTo (report r) t (.ok ()) t :=
  fun _ => ⟨_, rfl⟩

/-- An operation on the tree. -/
theorem comesTo_lift {operation : StateM FileTree α} {a : α} (h : operation.run t = (a, t')) :
    ComesTo (liftM operation : Session (StateM FileTree) α) t (.ok a) t' := by
  intro transcript
  refine ⟨transcript, ?_⟩
  show ((do let a ← operation; pure (Except.ok a, transcript)) : StateM FileTree _).run t = _
  rw [StateT.run_bind, h]
  rfl

variable {s : Session (StateM FileTree) α} {f : α → Session (StateM FileTree) β} {a : α}
  {r : Except Ending β} {e : Ending}

/-- A part that gives a result is followed by what is made of it. -/
theorem ComesTo.bind_ok (h : ComesTo s t (.ok a) t') (h' : ComesTo (f a) t' r t'') :
    ComesTo (s >>= f) t r t'' := by
  intro transcript
  obtain ⟨transcript', hs⟩ := h transcript
  obtain ⟨transcript'', hf⟩ := h' transcript'
  refine ⟨transcript'', ?_⟩
  rw [ExceptT.run_bind, StateT.run_bind, StateT.run_bind, hs]
  exact hf

/-- A part that ends the session is followed by nothing. -/
theorem ComesTo.bind_error (h : ComesTo s t (.error e) t') :
    ComesTo (s >>= f) t (.error e) t' := by
  intro transcript
  obtain ⟨transcript', hs⟩ := h transcript
  refine ⟨transcript', ?_⟩
  rw [ExceptT.run_bind, StateT.run_bind, StateT.run_bind, hs]
  rfl

/-- A failure that is reported. -/
theorem comesTo_fail (message : String) (t : FileTree) :
    ComesTo (fail message : Session (StateM FileTree) α) t (.error .failure) t :=
  (comesTo_report _ t).bind_ok (comesTo_throw _ t)

/-! ## Parts that only read -/

/-- A part of a session leaves the tree alone, and gives something of which `R` holds; if there is
nothing of the kind, it ends the session with the exit code 1. -/
def Decides (s : Session (StateM FileTree) α) (t : FileTree) (R : α → Prop) : Prop :=
  (∃ a, R a ∧ ComesTo s t (.ok a) t) ∨
    ((∀ a, ¬ R a) ∧ ∃ e, e.exitCode = 1 ∧ ComesTo s t (.error e) t)

/-- What a part that only reads comes to. -/
theorem Decides.ok {R : α → Prop} (ha : R a) (h : ComesTo s t (.ok a) t) : Decides s t R :=
  .inl ⟨a, ha, h⟩

theorem Decides.error {R : α → Prop} (hnone : ∀ a, ¬ R a) (he : e.exitCode = 1)
    (h : ComesTo s t (.error e) t) : Decides s t R :=
  .inr ⟨hnone, e, he, h⟩

/-- A part that only reads, behind one that gives something and leaves the tree alone. -/
theorem Decides.bind {R : β → Prop} (h : ComesTo s t (.ok a) t) (hf : Decides (f a) t R) :
    Decides (s >>= f) t R := by
  rcases hf with ⟨b, hb, hf⟩ | ⟨hnone, e, he, hf⟩
  · exact .ok hb (h.bind_ok hf)
  · exact .error hnone he (h.bind_ok hf)

/-- **The same part for all elements of a list** gives what it is to give for each of them, in turn;
where there is nothing to give for one of them, it ends the session. -/
theorem decides_mapM {R : α → β → Prop} {as : List α} (h : ∀ a ∈ as, Decides (f a) t (R a)) :
    Decides (as.mapM f) t (List.Forall₂ R as) := by
  induction as with
  | nil =>
    rw [List.mapM_nil]
    exact .ok .nil (comesTo_pure _ t)
  | cons a as ih =>
    obtain ⟨ha, has⟩ := List.forall_mem_cons.mp h
    rw [List.mapM_cons]
    rcases ha with ⟨b, hb, hfirst⟩ | ⟨hnone, e, he, hfirst⟩
    · rcases ih has with ⟨bs, hbs, hrest⟩ | ⟨hnone, e, he, hrest⟩
      · exact .ok (.cons hb hbs) (hfirst.bind_ok (hrest.bind_ok (comesTo_pure _ t)))
      · refine .error (fun bs hbs => ?_) he (hfirst.bind_ok hrest.bind_error)
        obtain ⟨-, rest, -, hrest, -⟩ := List.forall₂_cons_left_iff.mp hbs
        exact hnone rest hrest
    · refine .error (fun bs hbs => ?_) he hfirst.bind_error
      obtain ⟨b, -, hb, -, -⟩ := List.forall₂_cons_left_iff.mp hbs
      exact hnone b hb

/-! ## Whole sessions -/

/-- How a session ends whose parts come to an outcome. -/
def endingOf : Except Ending Unit → Ending
  | .ok () => .success
  | .error e => e

/-- What a session comes to is how it ends, and the tree that it leaves. -/
theorem run_of_comesTo {command : Command} {r : Except Ending Unit}
    (h : ComesTo (perform FileTree.fileSystem command) t r t') :
    ∃ transcript, (run FileTree.fileSystem command).run t = ((endingOf r, transcript), t') := by
  obtain ⟨transcript, hperform⟩ := h {}
  refine ⟨transcript, ?_⟩
  rw [run, StateT.run_bind, hperform]
  cases r <;> rfl

end MaskEnum.Session

import MaskEnum.Path
import Mathlib.Data.List.TakeWhile
import Mathlib.Data.String.Basic
set_option autoImplicit false

/-!
# Names in paths

A path that is written by a text has no slash in its names. A name without slashes is one entry of a
directory.

## Main definitions

* `MaskEnum.Path.Slashless` — no name of a path has a slash.

## Main results

* `MaskEnum.Path.slashless_ofText`, `MaskEnum.Path.Slashless.join` — paths that are written.
* `MaskEnum.Path.ofText_of_notMem` — a name as a path.
* `MaskEnum.Path.entry_of_notMem` — an entry of a directory.
-/

namespace MaskEnum

/-! ## Pieces -/

namespace Text

variable {mark : Char} {cs : List Char}

/-- No piece has the mark. -/
theorem notMem_of_mem_pieces {piece : List Char} (h : piece ∈ pieces mark cs) : mark ∉ piece := by
  induction cs generalizing piece with
  | nil =>
    obtain rfl := List.mem_singleton.mp h
    exact List.not_mem_nil
  | cons c cs ih =>
    rw [pieces] at h
    split_ifs at h with hc
    · rcases List.mem_cons.mp h with rfl | h
      · exact List.not_mem_nil
      · exact ih h
    · have hnot : ∀ {first : List Char}, mark ∉ first → mark ∉ c :: first := fun hfirst =>
        List.not_mem_cons_of_ne_of_not_mem (Ne.symm hc) hfirst
      split at h
      · obtain rfl := List.mem_singleton.mp h
        exact hnot List.not_mem_nil
      · next first rest heq =>
        rw [heq] at ih
        rcases List.mem_cons.mp h with rfl | h
        · exact hnot (ih List.mem_cons_self)
        · exact ih (List.mem_cons_of_mem _ h)

/-- A text without the mark is one piece. -/
theorem pieces_of_notMem (h : mark ∉ cs) : pieces mark cs = [cs] := by
  induction cs with
  | nil => rfl
  | cons c cs ih =>
    obtain ⟨hc, hcs⟩ := List.ne_and_not_mem_of_not_mem_cons h
    rw [pieces, if_neg (Ne.symm hc), ih hcs]

end Text

namespace Path

variable {p q : Path}

/-- No name of a path has a slash. -/
def Slashless (p : Path) : Prop := ∀ name ∈ p.names, '/' ∉ name.toList

/-- A path that is written by a text has no slash in its names. -/
theorem slashless_ofText (text : String) : (ofText text).Slashless := by
  intro name hname
  obtain ⟨piece, hpiece, rfl⟩ := List.mem_map.mp hname
  rw [String.toList_ofList]
  exact Text.notMem_of_mem_pieces (List.mem_of_mem_filter hpiece)

/-- Nor has such a path seen from another. -/
theorem Slashless.join (hp : p.Slashless) (hq : q.Slashless) : (p.join q).Slashless := by
  rw [Path.join]
  split_ifs
  · exact hq
  · exact fun name hname => (List.mem_append.mp hname).elim (hp name) (hq name)

/-- Nor has the path without its last name. -/
theorem Slashless.parent (hp : p.Slashless) : p.parent.Slashless :=
  fun name hname => hp name (List.dropLast_subset _ hname)

/-- Nor have the paths above. -/
theorem Slashless.ancestors (hp : p.Slashless) : ∀ q ∈ p.ancestors, q.Slashless := by
  have habove : ∀ names : List String, (∀ name ∈ names, '/' ∉ name.toList) →
      ∀ q ∈ above p.anchor names, q.Slashless := by
    intro names
    induction names with
    | nil => exact fun _ => List.forall_mem_nil _
    | cons name names ih =>
      intro hnames
      have hrest := (List.forall_mem_cons.mp hnames).2
      exact List.forall_mem_cons.mpr
        ⟨fun name' hname' => hrest name' (List.mem_reverse.mp hname'), ih hrest⟩
  exact List.forall_mem_cons.mpr
    ⟨hp, habove _ fun name hname => hp name (List.mem_reverse.mp hname)⟩

/-- Nor has the last name, cut or not. -/
theorem Slashless.notMem_stem (hp : p.Slashless) : '/' ∉ p.stem.toList := by
  have hname : '/' ∉ p.name.toList := by
    rw [name]
    cases hlast : p.names.getLast? with
    | none => exact List.not_mem_nil
    | some last => exact hp last (List.mem_of_getLast? hlast)
  rw [stem, splitName]
  split_ifs
  · exact hname
  · rw [String.toList_ofList]
    exact fun hmem => hname (List.mem_of_mem_take hmem)

variable {name : String}

/-- A name without slashes is a path of one name, unless it is empty or a dot. -/
theorem ofText_of_notMem (hslash : '/' ∉ name.toList) (hempty : name ≠ "") (hdot : name ≠ ".") :
    ofText name = ⟨"", [name]⟩ := by
  have hslashes : slashes name.toList = 0 := by
    rw [slashes, List.length_eq_zero_iff, List.eq_nil_iff_forall_not_mem]
    intro c hc
    have hslashed : c = '/' := by simpa using List.mem_takeWhile_imp hc
    exact hslash (hslashed ▸ (List.takeWhile_subset _) hc)
  have hkept : ((name.toList != []) && name.toList != ['.']) = true := by
    have hone : name.toList ≠ ['.'] := fun h => hdot (String.toList_injective h)
    simp [hempty, hone]
  have hnames : [name.toList].filter (fun cs => cs != [] && cs != ['.']) = [name.toList] := by
    rw [List.filter_cons, if_pos hkept, List.filter_nil]
  rw [ofText, hslashes, Text.pieces_of_notMem hslash, hnames, List.map_singleton,
    String.ofList_toList]
  rfl

/-- The path of an entry of a directory. -/
theorem entry_of_notMem (p : Path) (hslash : '/' ∉ name.toList) (hempty : name ≠ "")
    (hdot : name ≠ ".") : p.entry name = ⟨p.anchor, p.names ++ [name]⟩ := by
  rw [entry, ofText_of_notMem hslash hempty hdot]
  rfl

end Path
end MaskEnum

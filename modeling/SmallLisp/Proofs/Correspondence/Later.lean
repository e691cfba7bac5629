import SmallLisp.Proofs.Correspondence.Evaluation
import SmallLisp.Proofs.Evaluation.Identities
import SmallLisp.Proofs.Evaluation.Later
import SmallLisp.Proofs.Evaluation.WellFormed
import SmallLisp.Proofs.Reading.Readable
/-!
A store and a later one.

Main statement: if a correspondence leaves the frames of a store alone, and the identities in use
there, then the store corresponds to every later one.  A value without functions stays the same
under any correspondence, but for the identities of its lists.
-/

namespace SmallLisp

/-- A value that neither is a function nor has one in its lists. -/
inductive Value.FunctionFree : Value → Prop
  | symbol (name : Text) : FunctionFree (.symbol name)
  | integer (n : Int) : FunctionFree (.integer n)
  | boolean (b : Bool) : FunctionFree (.boolean b)
  | list {items : List Value} (identity : Option Nat) : (∀ v ∈ items, FunctionFree v) →
      FunctionFree (.list items identity)
  | foreign (text : Option Text) : FunctionFree (.foreign text)

namespace Correspondence

variable {K : Correspondence} {aliases : List Text} {guests : Prop} {count : Nat} {v : Value}

section Values

/-- What stands for a function is one. -/
theorem functionFree_of_value (h : (K.value aliases v).FunctionFree) : v.FunctionFree := by
  generalize hw : K.value aliases v = w at h
  induction h generalizing v with
  | list identity _ ih =>
    obtain ⟨items, identity', rfl, rfl⟩ := exists_of_value_list hw
    exact .list identity' fun item hitem => ih _ (List.mem_map_of_mem hitem) rfl
  | _ =>
    cases v <;> simp only [value, reduceCtorEq] at hw
    constructor

theorem functionFree_value (h : v.FunctionFree) : (K.value aliases v).FunctionFree := by
  induction h with
  | list identity _ ih =>
    rw [value_list]
    exact .list _ (List.forall_mem_map.mpr ih)
  | _ =>
    simp only [value]
    constructor

/-- Every value of a store is known in it, if all its frames know the variable by its own name. -/
theorem known_of_wellFormed (K : Correspondence) (h : v.WellFormed guests count) :
    K.Known (List.replicate count K.old) v := by
  induction h with
  | symbol _ => exact .symbol _
  | integer n => exact .integer n
  | boolean b => exact .boolean b
  | list identity _ ih => exact .list identity ih
  | primitive identity p => exact .primitive identity p
  | closure identity _ _ hf ih =>
    exact .closure identity (List.getElem?_replicate_of_lt hf) (fun _ => rfl) (fun _ => rfl) ih
  | foreign text _ => exact .foreign text

/-- A value that a correspondence leaves alone: its frames and its identities stand for
themselves. -/
theorem value_self (hframe : ∀ f < count, K.frame f = f)
    (hidentity : ∀ i, v.Bears i → K.identity i = i) (h : v.WellFormed guests count) :
    K.value (List.replicate count K.old) v = v := by
  induction h with
  | list identity _ ih =>
    rw [value_list, List.map_congr_left fun v hv => ih v hv fun i hi => hidentity i (.item hv hi),
      List.map_id']
    cases identity with
    | none => rfl
    | some i => rw [Option.map_some, hidentity i .list]
  | primitive identity p => rw [value_primitive, hidentity identity .primitive]
  | closure identity _ _ hf ih =>
    rw [value_closure _ _ _ (List.getElem?_replicate_of_lt hf), code, Value.rename_self,
      ih fun i hi => hidentity i (.body hi), hidentity identity .closure, hframe _ hf,
      List.map_congr_left fun name _ => Text.renamed_self K.old name, List.map_id']
  | _ => simp only [value]

/-- What stands for a value without functions differs from it in the identities of lists alone. -/
theorem bare_value (h : v.FunctionFree) : (K.value aliases v).bare = v.bare := by
  induction h with
  | list identity _ ih =>
    rw [value_list, Value.bare_list, Value.bare_list, List.map_map]
    exact congrArg Value.list (List.map_congr_left ih)
  | _ => simp only [value]

/-- It does not differ at all if every identity stands for itself. -/
theorem value_of_functionFree (hidentity : ∀ i, K.identity i = i) (h : v.FunctionFree) :
    K.value aliases v = v := by
  induction h with
  | list identity _ ih =>
    rw [value_list, List.map_congr_left ih, List.map_id']
    cases identity with
    | none => rfl
    | some i => rw [Option.map_some, hidentity]
  | _ => simp only [value]

end Values

section Stores

variable {s t : Store}

/-- A frame of a well-formed store that a correspondence leaves alone. -/
theorem frameOf_self (hframe : ∀ f < count, K.frame f = f) {frame : Frame} {place : FrameId}
    (h : frame.WellFormed guests count place) (hplace : place < count)
    (hidentity : ∀ entry ∈ frame.bindings, ∀ i, entry.2.Bears i → K.identity i = i) :
    K.frameOf (List.replicate count K.old) K.old frame = frame := by
  have hbindings : ∀ entry ∈ frame.bindings,
      Prod.map (Text.renamed K.old K.old) (K.value (List.replicate count K.old)) entry = entry :=
    fun entry hentry => Prod.ext (Text.renamed_self _ _)
      (value_self hframe (hidentity entry hentry) (h.values entry hentry))
  have hparent : frame.parent.map K.frame = frame.parent := by
    cases hp : frame.parent with
    | none => rfl
    | some p => exact congrArg some (hframe p (Nat.lt_trans (h.parent p hp) hplace))
  rw [frameOf, List.map_congr_left hbindings, List.map_id', hparent]

/-- A store corresponds to a later one if the correspondence leaves alone what there is and goes
from what comes next here to what comes next there. -/
theorem relates_later (hs : s.WellFormed guests) (hlater : s.Preserves t) (ht : t.ParentsFirst)
    (hold : SpecialForm.ofName? K.old = none) (hframe : ∀ f < s.frames.size, K.frame f = f)
    (hfresh : ∀ k, K.frame (s.frames.size + k) = t.frames.size + k)
    (hidentity : ∀ (f : FrameId) (frame : Frame), s.frames[f]? = some frame →
      ∀ entry ∈ frame.bindings, ∀ i, entry.2.Bears i → K.identity i = i)
    (hfresh' : ∀ k, K.identity (s.nextIdentity + k) = t.nextIdentity + k) :
    K.Relates (List.replicate s.frames.size K.old) s t where
  size := List.length_replicate.symm
  plain y hy := List.eq_of_mem_replicate hy ▸ hold
  frame_fresh := hfresh
  identity_fresh := hfresh'
  known f frame hf y hy := by
    have hlt := (Array.getElem?_eq_some_iff.mp hf).1
    have hframe := hs f frame hf
    rw [List.getElem?_replicate_of_lt hlt] at hy
    obtain rfl := Option.some.inj hy
    refine ⟨⟨fun _ => rfl, fun entry hentry => ?_⟩, fun p hp => .inl ?_⟩
    · exact known_of_wellFormed K (hframe.values entry hentry)
    · exact List.getElem?_replicate_of_lt (Nat.lt_trans (hframe.parent p hp) hlt)
  image f frame hf y hy := by
    have hlt := (Array.getElem?_eq_some_iff.mp hf).1
    rw [List.getElem?_replicate_of_lt hlt] at hy
    obtain rfl := Option.some.inj hy
    rw [hframe f hlt, hlater.frames f hlt, hf,
      frameOf_self hframe (hs f frame hf) hlt (hidentity f frame hf)]
  first := hs.parentsFirst
  first' := ht

end Stores

end Correspondence

end SmallLisp

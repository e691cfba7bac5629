import Mathlib.Data.List.Basic
import SmallLisp.Proofs.Evaluation.Outcome
/-!
The laws of lexical environments.

A name is looked for from a frame along its parents, and a frame may be a parent of many others.
Main statement: what every operation on a tree of frames does, as it is seen from all frames of the
tree: a lookup sees the first frame on the way that binds the name, a definition is seen from where
nothing shadows it, and what fails leaves every frame as it was.
-/

namespace SmallLisp

open Evaluation

/-- The last binding of a name stays. -/
theorem Frame.get?_defineAll_of_last {pairs : Table Text Value} {i : Nat} {name : Text} {v : Value}
    (h : pairs[i]? = some (name, v))
    (hlast : ∀ j, i < j → ∀ entry, pairs[j]? = some entry → entry.1 ≠ name) (frame : Frame) :
    (frame.defineAll pairs).get? name = some v := by
  induction pairs generalizing i frame with
  | nil => simp at h
  | cons first rest ih =>
    cases i with
    | zero =>
      obtain rfl : first = (name, v) := by simpa using h
      have hfresh : name ∉ Table.keys rest := by
        intro hmem
        obtain ⟨entry, hentry, hkey⟩ := List.mem_map.mp hmem
        obtain ⟨j, hj⟩ := List.mem_iff_getElem?.mp hentry
        exact hlast (j + 1) (Nat.succ_pos j) entry hj hkey
      exact (get?_defineAll_of_not_mem hfresh _).trans (get?_define_self frame name v)
    | succ i =>
      refine ih h (fun j hj entry hentry => ?_) _
      exact hlast (j + 1) (Nat.succ_lt_succ hj) entry hentry

/-- The way from a frame along the parents to a frame, past frames that `skip` allows. -/
inductive Store.Climbs (s : Store) (skip : FrameId → Prop) : FrameId → FrameId → Prop
  | here (f : FrameId) : Climbs s skip f f
  | outer {f p g : FrameId} : skip f → s.parent? f = some p → Climbs s skip p g →
      Climbs s skip f g

namespace Store

/-- The frames of the way along the parents. -/
def Ancestor (s : Store) (f g : FrameId) : Prop :=
  s.Climbs (fun _ => True) f g

/-- The way from `f` to `g` meets no frame before `g` that binds a name. -/
def Unshadowed (s : Store) (name : Text) (f g : FrameId) : Prop :=
  s.Climbs (fun k => s.getIn? name k = none) f g

section Climbs

variable {s : Store} {skip : FrameId → Prop} {f g : FrameId}

theorem climbs_iff : s.Climbs skip f g ↔
    f = g ∨ skip f ∧ ∃ p, s.parent? f = some p ∧ s.Climbs skip p g := by
  constructor
  · rintro (_ | ⟨hskip, hp, hclimbs⟩)
    · exact Or.inl rfl
    · exact Or.inr ⟨hskip, _, hp, hclimbs⟩
  · rintro (rfl | ⟨hskip, p, hp, hclimbs⟩)
    · exact .here f
    · exact .outer hskip hp hclimbs

/-- The way along the parents goes down in the numbering of the frames. -/
theorem Climbs.le (h : s.ParentsFirst) (hclimbs : s.Climbs skip f g) : g ≤ f := by
  induction hclimbs with
  | here f => exact Nat.le_refl f
  | outer _ hp _ ih => exact Nat.le_trans ih (Nat.le_of_lt (h _ _ hp))

/-- The same way in another store with the same parents, if what it passes may be passed there. -/
theorem Climbs.mono {s' : Store} {skip' : FrameId → Prop} (h : s.ParentsFirst)
    (hparent : ∀ k, s'.parent? k = s.parent? k) (hclimbs : s.Climbs skip f g)
    (hskip : ∀ k : Nat, g < k → skip k → skip' k) : s'.Climbs skip' f g := by
  induction hclimbs with
  | here f => exact .here f
  | outer hpass hp houter ih =>
    have hlt := Nat.lt_of_le_of_lt (houter.le h) (h _ _ hp)
    exact .outer (hskip _ hlt hpass) ((hparent _).trans hp) (ih hskip)

/-- A search along the chain finds what the first frame has that has anything. -/
theorem findSome?_chain_eq_some_iff {α : Type} (h : s.ParentsFirst) (look : FrameId → Option α)
    (f : FrameId) (a : α) :
    (s.chain f).findSome? look = some a ↔
      ∃ g, s.Climbs (fun k => look k = none) f g ∧ look g = some a := by
  induction f using Nat.strongRecOn with
  | ind f ih =>
    rw [chain_eq h, List.findSome?_cons]
    cases hlook : look f with
    | some b =>
      simp only [Option.some.injEq]
      constructor
      · rintro rfl
        exact ⟨f, .here f, hlook⟩
      · rintro ⟨g, hclimbs, hg⟩
        rcases climbs_iff.mp hclimbs with rfl | ⟨hskip, -⟩
        · exact Option.some.inj (hlook.symm.trans hg)
        · simp [hlook] at hskip
    | none =>
      have hstep : (∃ g, s.Climbs (fun k => look k = none) f g ∧ look g = some a) ↔
          ∃ p, s.parent? f = some p ∧
            ∃ g, s.Climbs (fun k => look k = none) p g ∧ look g = some a := by
        constructor
        · rintro ⟨g, hclimbs, hg⟩
          rcases climbs_iff.mp hclimbs with rfl | ⟨-, p, hp, houter⟩
          · simp [hlook] at hg
          · exact ⟨p, hp, g, houter, hg⟩
        · rintro ⟨p, hp, g, houter, hg⟩
          exact ⟨g, .outer hlook hp houter, hg⟩
      rw [hstep]
      cases hp : s.parent? f with
      | none => simp
      | some p => simpa using ih p (h f p hp)

/-- A search along the chain finds nothing if no frame of the way has anything. -/
theorem findSome?_chain_eq_none_iff {α : Type} (h : s.ParentsFirst) (look : FrameId → Option α)
    (f : FrameId) :
    (s.chain f).findSome? look = none ↔ ∀ g, s.Ancestor f g → look g = none := by
  induction f using Nat.strongRecOn with
  | ind f ih =>
    have hstep : (∀ g, s.Ancestor f g → look g = none) ↔
        look f = none ∧ ∀ p, s.parent? f = some p → ∀ g, s.Ancestor p g → look g = none := by
      constructor
      · exact fun hall => ⟨hall f (.here f), fun p hp g hg => hall g (.outer trivial hp hg)⟩
      · rintro ⟨hhere, houter⟩ g hg
        rcases climbs_iff.mp hg with rfl | ⟨-, p, hp, hg⟩
        · exact hhere
        · exact houter p hp g hg
    rw [hstep, chain_eq h, List.findSome?_cons]
    cases look f with
    | some b => simp
    | none =>
      cases hp : s.parent? f with
      | none => simp
      | some p => simpa using ih p (h f p hp)

theorem find?_eq_some_iff (h : s.ParentsFirst) (f : FrameId) (name : Text) (g : FrameId) :
    s.find? f name = some g ↔ s.Unshadowed name f g ∧ (s.getIn? name g).isSome = true := by
  have hskip : (fun k => Option.guard (fun k => (s.getIn? name k).isSome) k = none) =
      fun k => s.getIn? name k = none := by
    funext k
    simp [Option.guard]
  rw [find?, List.find?_eq_findSome?_guard, findSome?_chain_eq_some_iff h, hskip]
  simp only [Option.guard_eq_some_iff]
  constructor
  · rintro ⟨k, hclimbs, rfl, hbound⟩
    exact ⟨hclimbs, hbound⟩
  · rintro ⟨hclimbs, hbound⟩
    exact ⟨g, hclimbs, rfl, hbound⟩

theorem find?_eq_none_iff (h : s.ParentsFirst) (f : FrameId) (name : Text) :
    s.find? f name = none ↔ ∀ g, s.Ancestor f g → s.getIn? name g = none := by
  rw [find?, List.find?_eq_findSome?_guard, findSome?_chain_eq_none_iff h]
  simp [Option.guard]

/-- A lookup goes on in the parent if the frame itself does not bind the name. -/
theorem lookup?_eq (h : s.ParentsFirst) (f : FrameId) (name : Text) :
    s.lookup? f name =
      (s.getIn? name f).or ((s.parent? f).bind fun p => s.lookup? p name) := by
  rw [lookup?, chain_eq h, List.findSome?_cons]
  cases s.getIn? name f with
  | some v => rfl
  | none => cases s.parent? f <;> rfl

end Climbs

/-- The store `s'` is the store `s` with `name` bound to `v` in frame `f`, as it is seen from all
frames. -/
structure Rebinds (s : Store) (f : FrameId) (name : Text) (v : Value) (s' : Store) : Prop where
  parent : ∀ g, s'.parent? g = s.parent? g
  others : ∀ g, g ≠ f → s'.frames[g]? = s.frames[g]?
  /-- A name that is there keeps its place; a new one comes last. -/
  keys : ∀ frame, s.frames[f]? = some frame → ∃ frame', s'.frames[f]? = some frame' ∧
    Table.keys frame'.bindings = if name ∈ Table.keys frame.bindings then Table.keys frame.bindings
      else Table.keys frame.bindings ++ [name]
  find : ∀ g, s'.find? g name = some f ↔ s.Unshadowed name g f
  seen : ∀ g, s.Unshadowed name g f → s'.lookup g name = .ok v
  unseen : ∀ g other, other ≠ name ∨ ¬ s.Unshadowed name g f →
    s'.lookup g other = s.lookup g other

/-- The store `s'` is the store `s` with a new frame in `f`, in which parameters are bound to
arguments. -/
structure HasCallee (s : Store) (f : FrameId) (formals : List Text) (args : List Value)
    (s' : Store) : Prop where
  size : s'.frames.size = s.frames.size + 1
  others : ∀ g : Nat, g < s.frames.size → s'.frames[g]? = s.frames[g]?
  parent : s'.parent? s.nextFrame = some f
  /-- A parameter is bound to the argument at the last place at which it stands. -/
  parameter : ∀ (i : Nat) (name : Text), formals[i]? = some name →
    (∀ j : Nat, i < j → formals[j]? ≠ some name) → s'.getIn? name s.nextFrame = args[i]?
  unbound : ∀ name, name ∉ formals → s'.getIn? name s.nextFrame = none

section Define

variable {s : Store} {f : FrameId}

theorem parent?_define (s : Store) (f : FrameId) (name : Text) (v : Value) (g : FrameId) :
    (s.define f name v).parent? g = s.parent? g := by
  rw [parent?, parent?, define, Array.getElem?_modify]
  split
  · cases s.frames[g]? <;> rfl
  · rfl

theorem getIn?_define_self (hf : f < s.frames.size) (name : Text) (v : Value) :
    (s.define f name v).getIn? name f = some v := by
  rw [getIn?, define, Array.getElem?_modify, if_pos rfl, Array.getElem?_eq_getElem hf]
  exact Frame.get?_define_self _ name v

theorem getIn?_define_of_ne {g : FrameId} {name other : Text} (h : g ≠ f ∨ other ≠ name)
    (v : Value) : (s.define f name v).getIn? other g = s.getIn? other g := by
  rw [getIn?, getIn?, define, Array.getElem?_modify]
  split
  · rename_i hfg
    have hne : other ≠ name := h.resolve_left fun hgf => hgf hfg.symm
    cases s.frames[g]? with
    | none => rfl
    | some frame => exact Frame.get?_define_of_ne hne frame v
  · rfl

/-- The way to a frame passes other frames only, so a definition there shadows nothing on it. -/
theorem unshadowed_define_iff (h : s.ParentsFirst) (name : Text) (v : Value) (g : FrameId) :
    (s.define f name v).Unshadowed name g f ↔ s.Unshadowed name g f := by
  have hsame : ∀ k : Nat, f < k → (s.define f name v).getIn? name k = s.getIn? name k :=
    fun k hk => getIn?_define_of_ne (Or.inl (Nat.ne_of_gt hk)) v
  constructor
  · intro hclimbs
    exact hclimbs.mono (h.define f name v) (fun k => (parent?_define s f name v k).symm)
      fun k hk hnone => (hsame k hk).symm.trans hnone
  · intro hclimbs
    exact hclimbs.mono h (parent?_define s f name v) fun k hk hnone => (hsame k hk).trans hnone

/-- A definition is not seen from where the way to it is shadowed. -/
theorem lookup?_define_of_not_unshadowed (h : s.ParentsFirst) (name : Text) (v : Value)
    (g : FrameId) (hg : ¬ s.Unshadowed name g f) :
    (s.define f name v).lookup? g name = s.lookup? g name := by
  induction g using Nat.strongRecOn with
  | ind g ih =>
    have hne : g ≠ f := by
      rintro rfl
      exact hg (.here g)
    rw [lookup?_eq (h.define f name v), lookup?_eq h, parent?_define,
      getIn?_define_of_ne (Or.inl hne)]
    cases hbound : s.getIn? name g with
    | some w => rfl
    | none =>
      cases hp : s.parent? g with
      | none => rfl
      | some p => exact ih p (h g p hp) fun hclimbs => hg (.outer hbound hp hclimbs)

/-- A definition of another name is not seen at all. -/
theorem lookup?_define_of_ne (h : s.ParentsFirst) {name other : Text} (hne : other ≠ name)
    (v : Value) (g : FrameId) : (s.define f name v).lookup? g other = s.lookup? g other := by
  induction g using Nat.strongRecOn with
  | ind g ih =>
    rw [lookup?_eq (h.define f name v), lookup?_eq h, parent?_define,
      getIn?_define_of_ne (Or.inr hne)]
    cases hp : s.parent? g with
    | none => rfl
    | some p =>
      rw [Option.bind_some, Option.bind_some, ih p (h g p hp)]

theorem lookup_eq_ok_iff (h : s.ParentsFirst) (f : FrameId) (name : Text) (v : Value) :
    s.lookup f name = .ok v ↔ ∃ g, s.Unshadowed name f g ∧ s.getIn? name g = some v := by
  have hlookup : s.lookup f name = .ok v ↔ s.lookup? f name = some v := by
    rw [lookup]
    cases s.lookup? f name <;> simp
  rw [hlookup]
  exact findSome?_chain_eq_some_iff h _ f v

theorem lookup_eq_error_iff (h : s.ParentsFirst) (f : FrameId) (name : Text) (e : Failure) :
    s.lookup f name = .error e ↔
      e = .fault (.unboundVariable name) ∧ ∀ g, s.Ancestor f g → s.getIn? name g = none := by
  rw [← findSome?_chain_eq_none_iff h, ← lookup?, lookup]
  cases s.lookup? f name <;> simp [eq_comm]

theorem rebinds_define (h : s.ParentsFirst) (hf : f < s.frames.size) (name : Text) (v : Value) :
    s.Rebinds f name v (s.define f name v) where
  parent := parent?_define s f name v
  others g hg := by
    rw [define, Array.getElem?_modify, if_neg (Ne.symm hg)]
  keys frame hframe := by
    refine ⟨frame.define name v, ?_, ?_⟩
    · rw [define, Array.getElem?_modify, if_pos rfl, hframe]
      rfl
    · split
      · exact Table.keys_insert_of_mem v ‹_›
      · exact Table.keys_insert_of_not_mem v ‹_›
  find g := by
    rw [find?_eq_some_iff (h.define f name v), unshadowed_define_iff h,
      getIn?_define_self hf]
    simp
  seen g hg := by
    rw [lookup_eq_ok_iff (h.define f name v)]
    exact ⟨f, (unshadowed_define_iff h name v g).mpr hg, getIn?_define_self hf name v⟩
  unseen g other hother := by
    rw [lookup, lookup]
    by_cases hname : other = name
    · subst hname
      rw [lookup?_define_of_not_unshadowed h other v g (hother.resolve_left (absurd rfl))]
    · rw [lookup?_define_of_ne h hname]

/-- The frame of a call, as it is seen in the store with it. -/
theorem hasCallee_push (s : Store) (f : FrameId) {formals : List Text} {args : List Value}
    (hcount : args.length = formals.length) :
    s.HasCallee f formals args (s.push (calleeFrame formals f args)) where
  size := by simp [push]
  others g hg := by
    simp [push, Array.getElem?_push, Nat.ne_of_lt hg]
  parent := by
    rw [parent?, push, nextFrame, Array.getElem?_push_size, Option.bind_some, calleeFrame,
      Frame.parent_defineAll]
  parameter i name hname hlast := by
    have hi : i < args.length := hcount ▸ (List.getElem?_eq_some_iff.mp hname).1
    have hpair : (formals.zip args)[i]? = some (name, args[i]) :=
      List.getElem?_zip_eq_some.mpr ⟨hname, List.getElem?_eq_getElem hi⟩
    rw [getIn?, push, nextFrame, Array.getElem?_push_size, Option.bind_some, calleeFrame,
      List.getElem?_eq_getElem hi]
    refine Frame.get?_defineAll_of_last hpair (fun j hj entry hentry => ?_) _
    exact fun hkey => hlast j hj (hkey ▸ (List.getElem?_zip_eq_some.mp hentry).1)
  unbound name hname := by
    rw [getIn?, push, nextFrame, Array.getElem?_push_size, Option.bind_some, calleeFrame]
    refine Frame.get?_defineAll_of_not_mem (fun hmem => ?_) _
    obtain ⟨entry, hentry, rfl⟩ := List.mem_map.mp hmem
    exact hname (List.of_mem_zip hentry).1

end Define

/-- The laws of the operations on the frame `f` of a tree, and on calls of functions made in it. -/
structure FollowsLexicalScope (s : Store) (f : FrameId) : Prop where
  /-- A lookup finds the value in the first frame on the way that binds the name. -/
  found : ∀ name v, outcome (lookupDatum f (.symbol name)) s = (.ok v, s) ↔
    ∃ g, s.Unshadowed name f g ∧ s.getIn? name g = some v
  /-- A lookup fails if and only if no frame on the way binds the name. -/
  unbound : ∀ name e, outcome (lookupDatum f (.symbol name)) s = (.error e, s) ↔
    e = .fault (.unboundVariable name) ∧ ∀ g, s.Ancestor f g → s.getIn? name g = none
  find : ∀ name g, outcome (findDatum f (.symbol name)) s = (.ok (some g), s) ↔
    s.Unshadowed name f g ∧ (s.getIn? name g).isSome = true
  findNone : ∀ name, outcome (findDatum f (.symbol name)) s = (.ok none, s) ↔
    ∀ g, s.Ancestor f g → s.getIn? name g = none
  define : ∀ name v, ∃ s', outcome (defineDatum f (.symbol name) v) s = (.ok ⟨⟩, s') ∧
    s.Rebinds f name v s'
  /-- Nothing is defined under what is not a symbol. -/
  defineOther : ∀ key v, (∀ name, key ≠ .symbol name) →
    ∃ e, outcome (defineDatum f key v) s = (.error e, s) ∧
      ∀ shown, key.display s = .ok shown → e = .fault (.notASymbol shown)
  /-- An assignment defines where the name is bound. -/
  assign : ∀ name v g, outcome (findDatum f (.symbol name)) s = (.ok (some g), s) →
    outcome (assignDatum f (.symbol name) v) s = outcome (defineDatum g (.symbol name) v) s
  assignUnbound : ∀ name v, outcome (findDatum f (.symbol name)) s = (.ok none, s) →
    outcome (assignDatum f (.symbol name) v) s =
      (.error (.fault (.unboundAssignment name)), s)
  assignOther : ∀ key v, (∀ name, key ≠ .symbol name) →
    ∃ e, outcome (assignDatum f key v) s = (.error e, s)
  /-- An update defines one name after the other. -/
  update : ∀ pairs : Table Text Value,
    outcome (defineTable f (pairs.map fun entry => (.symbol entry.1, entry.2))) s =
      (.ok ⟨⟩, pairs.foldl (fun reached entry => reached.define f entry.1 entry.2) s)
  /-- It stops where something is no symbol. -/
  updateOther : ∀ (pairs : Table Text Value) key v rest, (∀ name, key ≠ .symbol name) →
    ∃ e, outcome (defineTable f
        (pairs.map (fun entry => (.symbol entry.1, entry.2)) ++ (key, v) :: rest)) s =
      (.error e, pairs.foldl (fun reached entry => reached.define f entry.1 entry.2) s)
  /-- The frame of a call lies in the frame in which the function was made. -/
  extend : ∀ identity formals body args, args.length = formals.length →
    ∃ s', outcome (extendFrame identity formals body f args) s = (.ok s.nextFrame, s') ∧
      s.HasCallee f formals args s'
  extendCount : ∀ identity formals body args, args.length ≠ formals.length →
    outcome (extendFrame identity formals body f args) s =
      (.error (.fault (.argumentCount
        (Value.functionName s (.closure identity formals body f)) formals.length false
        args.length)), s)

/-- A failure that shows a value leaves the store as it was. -/
theorem exists_outcome_failOn {α : Type} (view : Store → View) (v : Value) (fault : Text → Fault)
    (s : Store) : ∃ e, outcome (failOn view v fault : Evaluation α) s = (.error e, s) ∧
      ∀ shown, (view s).display v = .ok shown → e = .fault (fault shown) := by
  rw [outcome_failOn, failShowing]
  cases hshown : (view s).display v with
  | error e => exact ⟨e, rfl, by simp⟩
  | ok text =>
    refine ⟨.fault (fault text), rfl, ?_⟩
    rintro shown ⟨⟩
    rfl

theorem exists_outcome_defineDatum_other (f : FrameId) {key : Value}
    (hkey : ∀ name, key ≠ .symbol name) (v : Value) (s : Store) :
    ∃ e, outcome (defineDatum f key v) s = (.error e, s) ∧
      ∀ shown, key.display s = .ok shown → e = .fault (.notASymbol shown) := by
  have hother : ∃ e,
      outcome (failOn (view nestingLimit) key .notASymbol : Evaluation Unit) s = (.error e, s) ∧
        ∀ shown, key.display s = .ok shown → e = .fault (.notASymbol shown) :=
    exists_outcome_failOn (view nestingLimit) key .notASymbol s
  cases key with
  | symbol name => exact absurd rfl (hkey name)
  | _ => exact hother

/-- A datum that is no symbol is found nowhere, and looking for it changes nothing. -/
theorem outcome_findDatum_other (f : FrameId) {key : Value} (hkey : ∀ name, key ≠ .symbol name)
    (s : Store) :
    outcome (findDatum f key) s =
      (if key.isNestedWithin nestingLimit then .ok none else .error .nestingTooDeep, s) := by
  have hother : outcome (if key.isNestedWithin nestingLimit then pure none
      else throw .nestingTooDeep : Evaluation (Option FrameId)) s =
      (if key.isNestedWithin nestingLimit then .ok none else .error .nestingTooDeep, s) := by
    split <;> rfl
  cases key with
  | symbol name => exact absurd rfl (hkey name)
  | _ => exact hother

theorem exists_outcome_assignDatum_other (f : FrameId) {key : Value}
    (hkey : ∀ name, key ≠ .symbol name) (v : Value) (s : Store) :
    ∃ e, outcome (assignDatum f key v) s = (.error e, s) := by
  have hother : ∃ e, outcome (do
      discard (findDatum f key)
      failOn (view nestingLimit) key .unboundAssignment : Evaluation Unit) s = (.error e, s) := by
    have hfind := outcome_findDatum_other f hkey s
    have hfail : ∃ e,
        outcome (failOn (view nestingLimit) key .unboundAssignment : Evaluation Unit) s =
          (.error e, s) ∧
        ∀ shown, (view nestingLimit s).display key = .ok shown →
          e = .fault (.unboundAssignment shown) :=
      exists_outcome_failOn (view nestingLimit) key .unboundAssignment s
    obtain ⟨e, he, -⟩ := hfail
    split at hfind
    · have hdiscard : outcome (discard (findDatum f key)) s = (.ok ⟨⟩, s) :=
        outcome_bind_ok hfind
      exact ⟨e, (outcome_bind_ok hdiscard).trans he⟩
    · have hdiscard : outcome (discard (findDatum f key)) s = (.error .nestingTooDeep, s) :=
        outcome_bind_error hfind
      exact ⟨_, outcome_bind_error hdiscard⟩
  cases key with
  | symbol name => exact absurd rfl (hkey name)
  | _ => exact hother

theorem outcome_assignDatum_symbol (f : FrameId) (name : Text) (v : Value) (s : Store) :
    outcome (assignDatum f (.symbol name) v) s =
      (s.find? f name).elim (.error (.fault (.unboundAssignment name)), s)
        fun g => (.ok ⟨⟩, s.define g name v) := by
  have hget : outcome (get : Evaluation Store) s = (.ok s, s) := rfl
  rw [assignDatum, outcome_bind_ok hget, set?]
  cases s.find? f name with
  | none => exact outcome_failOn (view nestingLimit) (.symbol name) .unboundAssignment s
  | some g => rfl

theorem outcome_defineTable_append (f : FrameId) (pairs : Table Text Value)
    (rest : Table Value Value) (s : Store) :
    outcome (defineTable f (pairs.map (fun entry => (.symbol entry.1, entry.2)) ++ rest)) s =
      outcome (defineTable f rest)
        (pairs.foldl (fun reached entry => reached.define f entry.1 entry.2) s) := by
  induction pairs generalizing s with
  | nil => rfl
  | cons entry pairs ih =>
    obtain ⟨name, v⟩ := entry
    have hdefine : outcome (defineDatum f (.symbol name) v) s = (.ok ⟨⟩, s.define f name v) := rfl
    exact (outcome_bind_ok hdefine).trans (ih (s.define f name v))

/-- In a store whose parents come first, the operations on every frame obey the laws. -/
theorem followsLexicalScope {s : Store} (h : s.ParentsFirst) {f : FrameId}
    (hf : f < s.frames.size) : s.FollowsLexicalScope f where
  found name v := by
    rw [lookupDatum, outcome_observe, Prod.mk.injEq, lookup_eq_ok_iff h]
    simp
  unbound name e := by
    rw [lookupDatum, outcome_observe, Prod.mk.injEq, lookup_eq_error_iff h]
    simp
  find name g := by
    rw [findDatum, outcome_observe, Prod.mk.injEq, ← find?_eq_some_iff h]
    simp
  findNone name := by
    rw [findDatum, outcome_observe, Prod.mk.injEq, ← find?_eq_none_iff h]
    simp
  define name v := ⟨_, rfl, rebinds_define h hf name v⟩
  defineOther key v hkey := exists_outcome_defineDatum_other f hkey v s
  assign name v g hfind := by
    have hg : s.find? f name = some g := by simpa [findDatum] using hfind
    rw [outcome_assignDatum_symbol, hg]
    rfl
  assignUnbound name v hfind := by
    have hnone : s.find? f name = none := by simpa [findDatum] using hfind
    rw [outcome_assignDatum_symbol, hnone]
    rfl
  assignOther key v hkey := exists_outcome_assignDatum_other f hkey v s
  update pairs := by
    have hall := outcome_defineTable_append f pairs [] s
    rw [List.append_nil] at hall
    exact hall
  updateOther pairs key v rest hkey := by
    rw [outcome_defineTable_append]
    obtain ⟨e, he, -⟩ := exists_outcome_defineDatum_other f hkey v
      (pairs.foldl (fun reached entry => reached.define f entry.1 entry.2) s)
    exact ⟨e, outcome_bind_error he⟩
  extend identity formals body args hcount := by
    rw [outcome_extendFrame, if_pos hcount]
    exact ⟨_, rfl, s.hasCallee_push f hcount⟩
  extendCount identity formals body args hcount := by
    rw [outcome_extendFrame, if_neg hcount]

/-- A global frame with a child that shadows one of its names, a child of that, and another child
of the global frame. -/
def branching : Store where
  frames := #[{ bindings := [("x", .integer 1)] },
    { bindings := [("x", .integer 2)], parent := some 0 }, { parent := some 1 },
    { parent := some 0 }]

theorem parentsFirst_branching : branching.ParentsFirst := by
  intro f p hp
  rcases f with _ | _ | _ | _ | f <;> cases hp <;> decide

/-- A new global value is seen in one branch and shadowed in the other. -/
theorem followsLexicalScope_branching :
    branching.ParentsFirst ∧ 0 < branching.frames.size ∧
    ∃ s', outcome (defineDatum 0 (.symbol "x") (.integer 3)) branching = (.ok ⟨⟩, s') ∧
      s'.lookup 3 "x" = .ok (.integer 3) ∧ s'.lookup 2 "x" = .ok (.integer 2) := by
  have hf : 0 < branching.frames.size := by decide
  obtain ⟨s', hdefine, hrebinds⟩ :=
    (followsLexicalScope parentsFirst_branching hf).define "x" (.integer 3)
  refine ⟨parentsFirst_branching, hf, s', hdefine, ?_, ?_⟩
  · exact hrebinds.seen 3 (.outer rfl rfl (.here 0))
  · refine (hrebinds.unseen 2 "x" (Or.inr fun hway => ?_)).trans rfl
    -- The way from frame 2 leads to frame 1, which binds the name, and not past it.
    rcases climbs_iff.mp hway with hroot | ⟨-, p, hp, hway⟩
    · exact absurd hroot (by decide)
    · obtain rfl : p = 1 := (Option.some.inj hp).symm
      rcases climbs_iff.mp hway with hroot | ⟨hskip, -⟩
      · exact absurd hroot (by decide)
      · exact absurd hskip nofun

end Store

end SmallLisp

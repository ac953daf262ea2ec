import Oat.Descent
import Oat.NovaState

/-!
# Alias objects of the types of a module

The named struct types of a module refer to each other by name, through a
table of their bodies. `createAliasObjectIn` is `CreateAliasObject` on
such types, with a bound on its depth; on the trees of the pass's state
it does what `createAliasObject` does.

It ends exactly when no struct type that it reaches leads back to itself
(`type_cycle_iff`), and then builds a cell for each field exactly when
none of the structs that the type contains is skipped (`field_cells_iff`).
-/

namespace Oat

namespace Nova

open Relation

/-! ## Types with names -/

/-- The bodies of the named struct types. An opaque one has none. -/
abbrev StructTable := List (String × List Ty)

/-- What `subtype_begin` to `subtype_end` are for a struct type. The name
decides, where there is one. -/
def subtypes (table : StructTable) : Option String → List Ty → List Ty
  | none, fields => fields
  | some name, _ => (table.lookup name).getD []

section Create

variable (table : StructTable) (v : Value)

def createFieldsWith
    (create : Ty → List AliasObject → Option (AliasObjectRef × List AliasObject)) (i : Nat) :
    List Ty → List AliasObject → Option (AliasMap × List AliasObject)
  | [], objects => some ([], objects)
  | type :: types, objects => do
      let (ao, objects) ← create type objects
      let (aliasMap, objects) ← createFieldsWith create (i + 1) types objects
      return ((i, [ao]) :: aliasMap, objects)

/-- `CreateAliasObject`. The number bounds the depth. -/
def createAliasObjectIn : Nat → Ty → List AliasObject → Option (AliasObjectRef × List AliasObject)
  | 0, _, _ => none
  | fuel + 1, .struct name fields, objects =>
      if skipStructType name then
        let (loc, objects) := (objects.length, objects ++ [.location v])
        some (objects.length, objects ++ [.object v (.struct name fields) false [(0, [loc])] []])
      else do
        let (aliasMap, objects) ←
          createFieldsWith (createAliasObjectIn fuel) 0 (subtypes table name fields) objects
        return (objects.length, objects ++ [.object v (.struct name fields) true aliasMap []])
  | fuel + 1, .ptr pointee, objects => do
      let (ao, objects) ← createAliasObjectIn fuel pointee objects
      return (objects.length, objects ++ [.object v (.ptr pointee) false [(0, [ao])] []])
  | _ + 1, type, objects =>
      let (loc, objects) := (objects.length, objects ++ [.location v])
      some (objects.length, objects ++ [.object v type false [(0, [loc])] []])

end Create

/-- The types that a type leads to, through pointers and the fields of the
structs that are not cut off. -/
def parts (table : StructTable) (cut : Option String → Bool) : Ty → List Ty
  | .struct name fields => if cut name then [] else subtypes table name fields
  | .ptr pointee => [pointee]
  | _ => []

/-! ## On trees -/

mutual

/-- The tree has the bodies of the table in place, where the pass goes. -/
def Inlined (table : StructTable) : Ty → Prop
  | .struct name fields =>
      skipStructType name = true ∨
        subtypes table name fields = fields ∧ InlinedAll table fields
  | .ptr pointee => Inlined table pointee
  | _ => True

def InlinedAll (table : StructTable) : List Ty → Prop
  | [] => True
  | t :: ts => Inlined table t ∧ InlinedAll table ts

end

mutual

/-- There it is the function of the state. -/
theorem createAliasObjectIn_inlined {table : StructTable} (v : Value) (t : Ty)
    (h : Inlined table t) : ∃ n, ∀ fuel, n ≤ fuel → ∀ objects,
      createAliasObjectIn table v fuel t objects = some (createAliasObject v t objects) := by
  match t with
  | .struct name fields =>
      by_cases hskip : skipStructType name = true
      · refine ⟨1, fun fuel hfuel objects => ?_⟩
        obtain ⟨fuel, rfl⟩ := Nat.exists_eq_add_of_le' hfuel
        rw [createAliasObjectIn, createAliasObject, if_pos hskip, if_pos hskip]
      · rw [Inlined, or_iff_right hskip] at h
        obtain ⟨n, hn⟩ := createFieldsWith_inlined v fields h.2
        refine ⟨n + 1, fun fuel hfuel objects => ?_⟩
        obtain ⟨fuel, rfl⟩ := Nat.exists_eq_add_of_le' (Nat.le_trans (Nat.le_add_left 1 n) hfuel)
        rw [createAliasObjectIn, createAliasObject, if_neg hskip, if_neg hskip, h.1,
          hn fuel (Nat.le_of_succ_le_succ hfuel) 0 objects]
        rfl
  | .ptr pointee =>
      obtain ⟨n, hn⟩ := createAliasObjectIn_inlined v pointee (by rwa [Inlined] at h)
      refine ⟨n + 1, fun fuel hfuel objects => ?_⟩
      obtain ⟨fuel, rfl⟩ := Nat.exists_eq_add_of_le' (Nat.le_trans (Nat.le_add_left 1 n) hfuel)
      rw [createAliasObjectIn, createAliasObject, hn fuel (Nat.le_of_succ_le_succ hfuel) objects]
      rfl
  | .int _ | .floating _ | .array _ | .other =>
      refine ⟨1, fun fuel hfuel objects => ?_⟩
      obtain ⟨fuel, rfl⟩ := Nat.exists_eq_add_of_le' hfuel
      rfl

theorem createFieldsWith_inlined {table : StructTable} (v : Value) (types : List Ty)
    (h : InlinedAll table types) : ∃ n, ∀ fuel, n ≤ fuel → ∀ i objects,
      createFieldsWith (createAliasObjectIn table v fuel) i types objects =
        some (createFields v i types objects) := by
  match types with
  | [] => exact ⟨0, fun _ _ _ _ => rfl⟩
  | t :: types =>
      rw [InlinedAll] at h
      obtain ⟨n, hn⟩ := createAliasObjectIn_inlined v t h.1
      obtain ⟨k, hk⟩ := createFieldsWith_inlined v types h.2
      refine ⟨max n k, fun fuel hfuel i objects => ?_⟩
      rw [createFieldsWith, createFields, hn fuel (Nat.le_trans (Nat.le_max_left ..) hfuel) objects]
      show (createFieldsWith _ (i + 1) types _).bind _ = _
      rw [hk fuel (Nat.le_trans (Nat.le_max_right ..) hfuel) (i + 1)]
      rfl

end

/-! ## The recursion ends -/

section Ends

variable {table : StructTable} {v : Value}

theorem createFieldsWith_isSome
    {create : Ty → List AliasObject → Option (AliasObjectRef × List AliasObject)} {ok : Ty → Bool}
    (hcreate : ∀ t objects, (create t objects).isSome = ok t) (i : Nat) (types : List Ty)
    (objects : List AliasObject) :
    (createFieldsWith create i types objects).isSome = types.all ok := by
  induction types generalizing i objects with
  | nil => rfl
  | cons t types ih =>
      have ht := hcreate t objects
      unfold createFieldsWith
      cases hc : create t objects with
      | none =>
          rw [hc] at ht
          simp [← ht]
      | some r =>
          rw [hc] at ht
          have hrest := ih (i + 1) r.2
          cases hr : createFieldsWith create (i + 1) types r.2 with
          | none =>
              rw [hr] at hrest
              simp [← hrest, hr]
          | some r' =>
              rw [hr] at hrest
              simp [← ht, ← hrest, hr]

/-- The objects there are already make no difference. -/
theorem createAliasObjectIn_isSome (fuel : Nat) (t : Ty) (objects : List AliasObject) :
    (createAliasObjectIn table v fuel t objects).isSome =
      Descent.ends (parts table skipStructType) fuel t := by
  induction fuel generalizing t objects with
  | zero => rfl
  | succ fuel ih =>
      cases t with
      | struct name fields =>
          rw [createAliasObjectIn, Descent.ends, parts]
          by_cases hskip : skipStructType name = true
          · rw [if_pos hskip, if_pos hskip]
            rfl
          · rw [if_neg hskip, if_neg hskip, ← createFieldsWith_isSome ih 0 _ objects]
            cases createFieldsWith (createAliasObjectIn table v fuel) 0
              (subtypes table name fields) objects <;> rfl
      | ptr pointee =>
          rw [createAliasObjectIn, Descent.ends, parts, List.all_cons, List.all_nil, Bool.and_true,
            ← ih pointee objects]
          cases createAliasObjectIn table v fuel pointee objects <;> rfl
      | _ => rfl

end Ends

/-! ## Type graphs -/

/-- The types that make up a type tree, where a name stands for nothing. -/
def Ty.children : Ty → List Ty
  | .struct _ fields => fields
  | .ptr pointee => [pointee]
  | _ => []

theorem sizeOf_children (t : Ty) : ∀ u ∈ t.children, sizeOf u < sizeOf t := by
  intro u hu
  cases t with
  | struct name fields =>
      have hlt : sizeOf u < sizeOf fields := List.sizeOf_lt_of_mem hu
      simp only [Ty.struct.sizeOf_spec]
      omega
  | ptr pointee =>
      obtain rfl := List.mem_singleton.mp hu
      simp only [Ty.ptr.sizeOf_spec]
      omega
  | _ => cases hu

/-- The types of a table and those of `t`. -/
def typesOf (table : StructTable) (t : Ty) : Set Ty :=
  ⋃ root ∈ {root | root ∈ t :: table.flatMap Prod.snd},
    {u | ReflTransGen (Descent.Leads Ty.children) root u}

section Graph

variable {table : StructTable} {cut : Option String → Bool}

theorem finite_typesOf (table : StructTable) (t : Ty) : (typesOf table t).Finite :=
  Set.Finite.biUnion (List.finite_toSet _) fun root _ =>
    Descent.finite_reach sizeOf_children root

theorem root_mem_typesOf {t root : Ty} (h : root ∈ t :: table.flatMap Prod.snd) :
    root ∈ typesOf table t := Set.mem_biUnion h .refl

/-- Away from the named structs, the parts are the children. -/
theorem parts_cases {t u : Ty} (h : u ∈ parts table cut t) :
    u ∈ t.children ∨
      ∃ name fields, t = .struct (some name) fields ∧ u ∈ table.flatMap Prod.snd := by
  cases t with
  | struct name fields =>
      rw [parts] at h
      split at h
      · cases h
      · cases name with
        | none => exact .inl h
        | some name =>
            rw [subtypes] at h
            cases hbody : table.lookup name with
            | none =>
                rw [hbody] at h
                cases h
            | some body =>
                rw [hbody] at h
                obtain ⟨l₁, l₂, rfl, -⟩ := List.lookup_eq_some_iff.mp hbody
                exact .inr ⟨name, fields, rfl,
                  List.mem_flatMap.mpr ⟨(name, body), List.mem_append_right _ (List.mem_cons_self ..), h⟩⟩
  | ptr pointee => exact .inl h
  | _ => cases h

theorem typesOf_closed {t u w : Ty} (hu : u ∈ typesOf table t) (hw : w ∈ parts table cut u) :
    w ∈ typesOf table t := by
  rcases parts_cases hw with hchild | ⟨-, -, -, hroot⟩
  · obtain ⟨root, hroot, hreach⟩ := Set.mem_iUnion₂.mp hu
    exact Set.mem_biUnion hroot (hreach.tail hchild)
  · exact root_mem_typesOf (List.mem_cons_of_mem _ hroot)

/-- A named struct type that leads back to itself. -/
def Recursive (table : StructTable) (cut : Option String → Bool) (u : Ty) : Prop :=
  (∃ name fields, u = .struct (some name) fields) ∧
    TransGen (Descent.Leads (parts table cut)) u u

theorem ends_iff_not_recursive (t : Ty) :
    (∃ n, Descent.ends (parts table cut) n t = true) ↔
      ∀ u, ReflTransGen (Descent.Leads (parts table cut)) t u → ¬ Recursive table cut u := by
  rw [Descent.ends_iff_no_cycle (finite_typesOf table t) (root_mem_typesOf (List.mem_cons_self ..))
    fun u hu w hw => typesOf_closed hu hw]
  constructor
  · exact fun h u hu hrec => h u hu hrec.2
  · intro h u hu hcycle
    -- on a cycle the trees cannot always get smaller
    obtain ⟨w, hw, huw, hcycle⟩ := Descent.cycle_through
      (P := fun w => ∃ name fields, w = .struct (some name) fields)
      (fun a ha b hb => sizeOf_children a b ((parts_cases hb).resolve_right
        fun ⟨name, fields, hname, _⟩ => ha ⟨name, fields, hname⟩)) hcycle
    exact h w (hu.trans huw) ⟨hw, hcycle⟩

end Graph

/-- The parts that are there by value: these hold the type's own bytes. -/
def valueParts (table : StructTable) : Ty → List Ty
  | .struct name fields => subtypes table name fields
  | .array elem => [elem]
  | _ => []

/-- No struct of the table holds itself by value. -/
def Sized (table : StructTable) : Prop :=
  ∀ p ∈ table, ∀ t ∈ p.2, ∃ n, Descent.ends (valueParts table) n t = true

/-- `CreateAliasObject` ends exactly when no named struct type that it
goes into leads back to itself; it goes into no named struct other than
those that `SkipStructType` does not skip. -/
theorem type_cycle_iff (table : StructTable) (v : Value) (t : Ty) (objects : List AliasObject) :
    (∃ fuel, (createAliasObjectIn table v fuel t objects).isSome = true) ↔
      ∀ u, ReflTransGen (Descent.Leads (parts table skipStructType)) t u →
        ¬ Recursive table skipStructType u := by
  rw [← ends_iff_not_recursive]
  simp only [createAliasObjectIn_isSome]

/-- `struct.IO_node` has a pointer to itself. -/
def nodeTable : StructTable := [("struct.IO_node", [.ptr (.struct (some "struct.IO_node") [])])]

def node : Ty := .struct (some "struct.IO_node") []

theorem nodeTable_sized : Sized nodeTable := by
  intro p hp t ht
  obtain rfl := List.mem_singleton.mp hp
  obtain rfl := List.mem_singleton.mp ht
  exact ⟨1, rfl⟩

theorem node_not_ends (n : Nat) : ¬ Descent.ends (parts nodeTable skipStructType) n node = true := by
  intro hends
  have hout : Descent.Leads (parts nodeTable skipStructType) node (.ptr node) := by
    simp [node, Descent.Leads, parts, skipStructType, subtypes, nodeTable]
  have hback : Descent.Leads (parts nodeTable skipStructType) (.ptr node) node :=
    List.mem_singleton_self _
  exact Descent.acc_not_cycle (Descent.ends_iff_acc.mp ⟨n, hends⟩) (.tail (.single hout) hback)

theorem type_cycle_unfolds : ¬ ∀ (table : StructTable) (v : Value) (t : Ty)
    (objects : List AliasObject), Sized table →
      ∃ fuel, (createAliasObjectIn table v fuel t objects).isSome = true := by
  intro h
  obtain ⟨fuel, hfuel⟩ := h nodeTable .null node [] nodeTable_sized
  rw [createAliasObjectIn_isSome] at hfuel
  exact node_not_ends fuel hfuel

/-! ## A cell for each field -/

/-- The object `ao` of the heap, and those it holds, have a cell of its
own for each field of each struct. Nothing is asked of the structs of a
library, and of an array, which is one object, what is `asked`. -/
inductive Built (table : StructTable) (library : String → Bool) (asked : Ty → Prop)
    (objects : List AliasObject) : Ty → AliasObjectRef → Prop where
  | library {name : String} {fields : List Ty} {ao : AliasObjectRef} (h : library name = true) :
      Built table library asked objects (.struct (some name) fields) ao
  | struct {name : Option String} {fields : List Ty} {ao : AliasObjectRef} {v : Value}
      (cell : Nat → AliasObjectRef)
      (hao : objects[ao]? = some (.object v (.struct name fields) true
        ((List.range (subtypes table name fields).length).map fun i => (i, [cell i])) []))
      (hcells : ∀ i t, (subtypes table name fields)[i]? = some t →
        Built table library asked objects t (cell i)) :
      Built table library asked objects (.struct name fields) ao
  | ptr {pointee : Ty} {ao cell : AliasObjectRef} {v : Value}
      (hao : objects[ao]? = some (.object v (.ptr pointee) false [(0, [cell])] []))
      (hcell : Built table library asked objects pointee cell) :
      Built table library asked objects (.ptr pointee) ao
  | array {elem : Ty} {ao : AliasObjectRef} (h : asked elem) :
      Built table library asked objects (.array elem) ao
  | int {width : Nat} {ao : AliasObjectRef} : Built table library asked objects (.int width) ao
  | floating {width : Nat} {ao : AliasObjectRef} :
      Built table library asked objects (.floating width) ao
  | other {ao : AliasObjectRef} : Built table library asked objects .other ao

/-- Whether nothing is asked of a struct. -/
def exempt (library : String → Bool) : Option String → Bool
  | some name => library name
  | none => false

/-- A struct of the module is not skipped; an array is as asked. -/
def Celled (library : String → Bool) (asked : Ty → Prop) : Ty → Prop
  | .struct name _ => exempt library name = true ∨ skipStructType name = false
  | .array elem => asked elem
  | _ => True

section Cells

variable {table : StructTable} {v : Value} {library : String → Bool} {asked : Ty → Prop}

theorem createFieldsWith_spec
    {create : Ty → List AliasObject → Option (AliasObjectRef × List AliasObject)}
    (hgrow : ∀ t objects r, create t objects = some r → objects <+: r.2) {i : Nat}
    {types : List Ty} {objects : List AliasObject} {r : AliasMap × List AliasObject}
    (h : createFieldsWith create i types objects = some r) :
    objects <+: r.2 ∧ ∃ cell : Nat → AliasObjectRef,
      r.1 = (List.range types.length).map (fun j => (i + j, [cell j])) ∧
        ∀ j t, types[j]? = some t →
          ∃ before r', create t before = some r' ∧ r'.1 = cell j ∧ r'.2 <+: r.2 := by
  induction types generalizing i objects r with
  | nil =>
      cases h
      exact ⟨List.prefix_rfl, fun _ => 0, rfl, fun j t hj => by simp at hj⟩
  | cons t types ih =>
      rw [createFieldsWith] at h
      obtain ⟨r₁, h₁, h⟩ := Option.bind_eq_some_iff.mp h
      obtain ⟨r₂, h₂, h⟩ := Option.bind_eq_some_iff.mp h
      cases h
      obtain ⟨hgrows, cell, hcells, hfields⟩ := ih h₂
      refine ⟨(hgrow t objects r₁ h₁).trans hgrows, fun j => j.casesOn r₁.1 cell, ?_, ?_⟩
      · rw [List.length_cons, List.range_succ_eq_map, List.map_cons, List.map_map]
        have hshift : r₂.1 = (List.range types.length).map fun j => (i + (j + 1), [cell j]) := by
          simpa only [Nat.add_assoc, Nat.add_comm 1] using hcells
        exact congrArg _ hshift
      · intro j u hj
        cases j with
        | zero =>
            obtain rfl : t = u := by simpa using hj
            exact ⟨objects, r₁, h₁, rfl, hgrows⟩
        | succ j => exact hfields j u (by simpa using hj)

theorem createAliasObjectIn_grow (fuel : Nat) (t : Ty) (objects : List AliasObject)
    (r : AliasObjectRef × List AliasObject)
    (h : createAliasObjectIn table v fuel t objects = some r) : objects <+: r.2 := by
  induction fuel generalizing t objects r with
  | zero => cases h
  | succ fuel ih =>
      cases t with
      | struct name fields =>
          rw [createAliasObjectIn] at h
          split at h
          · cases h
            exact (List.prefix_append _ _).trans (List.prefix_append _ _)
          · obtain ⟨r₁, h₁, h⟩ := Option.bind_eq_some_iff.mp h
            cases h
            exact (createFieldsWith_spec ih h₁).1.trans (List.prefix_append _ _)
      | ptr pointee =>
          rw [createAliasObjectIn] at h
          obtain ⟨r₁, h₁, h⟩ := Option.bind_eq_some_iff.mp h
          cases h
          exact (ih _ _ _ h₁).trans (List.prefix_append _ _)
      | _ =>
          cases h
          exact (List.prefix_append _ _).trans (List.prefix_append _ _)

theorem getElem?_at_end {α : Type} {l l' heap : List α} {a : α} (h : l' <+: heap)
    (hl : l' = l ++ [a]) : heap[l.length]? = some a := by
  obtain ⟨rest, rfl⟩ := h
  simp [hl]

section Inversion

variable {heap : List AliasObject} {ao : AliasObjectRef}

/-- A struct's object has the cells that it was given. -/
theorem built_struct_iff {name : Option String} {fields : List Ty} {cell : Nat → AliasObjectRef}
    (hlib : ¬ exempt library name = true)
    (hao : heap[ao]? = some (.object v (.struct name fields) true
      ((List.range (subtypes table name fields).length).map fun i => (i, [cell i])) [])) :
    Built table library asked heap (.struct name fields) ao ↔
      ∀ i u, (subtypes table name fields)[i]? = some u →
        Built table library asked heap u (cell i) := by
  refine ⟨fun hbuilt i u hi => ?_, fun hcells => .struct cell hao hcells⟩
  cases hbuilt with
  | library hname => exact absurd hname hlib
  | struct cell' hao' hcells' =>
      rw [hao, Option.some.injEq, AliasObject.object.injEq] at hao'
      have hlt := (List.getElem?_eq_some_iff.mp hi).1
      have hcell := List.map_inj_left.mp hao'.2.2.2.1 i (List.mem_range.mpr hlt)
      have heq : cell i = cell' i := by simpa using congrArg Prod.snd hcell
      exact heq ▸ hcells' i u hi

theorem not_built_skipped {name : Option String} {fields : List Ty} {aliasMap : AliasMap}
    (hlib : ¬ exempt library name = true)
    (hao : heap[ao]? = some (.object v (.struct name fields) false aliasMap [])) :
    ¬ Built table library asked heap (.struct name fields) ao := by
  intro hbuilt
  cases hbuilt with
  | library hname => exact hlib hname
  | struct cell hao' hcells =>
      rw [hao] at hao'
      cases hao'

theorem built_ptr_iff {pointee : Ty} {cell : AliasObjectRef}
    (hao : heap[ao]? = some (.object v (.ptr pointee) false [(0, [cell])] [])) :
    Built table library asked heap (.ptr pointee) ao ↔
      Built table library asked heap pointee cell := by
  refine ⟨fun hbuilt => ?_, .ptr hao⟩
  cases hbuilt with
  | ptr hao' hcell =>
      rw [hao, Option.some.injEq] at hao'
      cases hao'
      exact hcell

end Inversion

/-- The fields of an object that has just been created are built as their
types ask. -/
theorem built_fields_iff {name : Option String} {fields : List Ty}
    (hlib : ¬ exempt library name = true)
    {create : Ty → List AliasObject → Option (AliasObjectRef × List AliasObject)}
    {objects heap : List AliasObject} {r : AliasMap × List AliasObject}
    (h : createFieldsWith create 0 (subtypes table name fields) objects = some r)
    (hgrow : ∀ t objects r, create t objects = some r → objects <+: r.2)
    (hheap : r.2 ++ [.object v (.struct name fields) true r.1 []] <+: heap) {P : Ty → Prop}
    (hcreate : ∀ t objects r, create t objects = some r → r.2 <+: heap →
      (Built table library asked heap t r.1 ↔ P t)) :
    Built table library asked heap (.struct name fields) r.2.length ↔
      ∀ u ∈ subtypes table name fields, P u := by
  obtain ⟨-, cell, hcells, hfields⟩ := createFieldsWith_spec hgrow h
  simp only [Nat.zero_add] at hcells
  rw [built_struct_iff hlib (hcells ▸ getElem?_at_end hheap rfl)]
  have hfield : ∀ i u, (subtypes table name fields)[i]? = some u →
      (Built table library asked heap u (cell i) ↔ P u) := by
    intro i u hi
    obtain ⟨before, r', hr', hcell, hgrows⟩ := hfields i u hi
    rw [← hcell]
    exact hcreate u before r' hr' (hgrows.trans ((List.prefix_append _ _).trans hheap))
  constructor
  · intro hbuilt u hu
    obtain ⟨i, hi⟩ := List.mem_iff_getElem?.mp hu
    exact (hfield i u hi).mp (hbuilt i u hi)
  · intro hP i u hi
    exact (hfield i u hi).mpr (hP u (List.mem_of_getElem? hi))

/-- The cells are there exactly when no struct on the way is skipped. -/
theorem built_iff (fuel : Nat) (t : Ty) (objects : List AliasObject)
    (r : AliasObjectRef × List AliasObject)
    (h : createAliasObjectIn table v fuel t objects = some r) {heap : List AliasObject}
    (hheap : r.2 <+: heap) :
    Built table library asked heap t r.1 ↔
      ∀ u, ReflTransGen (Descent.Leads (parts table (exempt library))) t u →
        Celled library asked u := by
  induction fuel generalizing t objects r with
  | zero => cases h
  | succ fuel ih =>
      rw [Descent.forall_reach_iff]
      cases t with
      | struct name fields =>
          rw [parts]
          by_cases hlib : exempt library name = true
          · rw [if_pos hlib]
            cases name with
            | none => cases hlib
            | some name => exact iff_of_true (.library hlib) ⟨.inl hlib, fun _ hu => nomatch hu⟩
          rw [if_neg hlib]
          rw [createAliasObjectIn] at h
          split at h
          · rename_i hskip
            cases h
            refine iff_of_false (not_built_skipped hlib (getElem?_at_end hheap rfl)) ?_
            rintro ⟨hcelled | hcelled, -⟩
            · exact hlib hcelled
            · exact Bool.noConfusion (hskip.symm.trans hcelled)
          · rename_i hskip
            obtain ⟨r₁, h₁, h⟩ := Option.bind_eq_some_iff.mp h
            cases h
            rw [built_fields_iff hlib h₁ (createAliasObjectIn_grow fuel) hheap ih]
            exact (and_iff_right (.inr (Bool.eq_false_iff.mpr hskip))).symm
      | ptr pointee =>
          rw [createAliasObjectIn] at h
          obtain ⟨r₁, h₁, h⟩ := Option.bind_eq_some_iff.mp h
          cases h
          rw [built_ptr_iff (getElem?_at_end hheap rfl),
            ih pointee objects r₁ h₁ ((List.prefix_append _ _).trans hheap)]
          constructor
          · intro hcelled
            refine ⟨trivial, fun u hu => ?_⟩
            obtain rfl := List.mem_singleton.mp hu
            exact hcelled
          · exact fun hcelled => hcelled.2 pointee (List.mem_singleton_self _)
      | array elem =>
          constructor
          · intro hbuilt
            cases hbuilt with
            | array hasked => exact ⟨hasked, fun _ hu => nomatch hu⟩
          · exact fun hcelled => .array hcelled.1
      | int width => exact iff_of_true .int ⟨trivial, fun _ hu => nomatch hu⟩
      | floating width => exact iff_of_true .floating ⟨trivial, fun _ hu => nomatch hu⟩
      | other => exact iff_of_true .other ⟨trivial, fun _ hu => nomatch hu⟩

/-- A getelementptr to a field finds a cell. -/
theorem aliasSet?_of_built {gs : GlobalState} {name : Option String} {fields : List Ty}
    {ao : AliasObjectRef} (hlib : exempt library name = false)
    (h : Built table library asked gs.objects (.struct name fields) ao) {i : Nat}
    (hi : i < (subtypes table name fields).length) : (gs.aliasSet? ⟨i, ao⟩).isSome = true := by
  cases h with
  | library hname => exact Bool.noConfusion (hlib.symm.trans hname)
  | struct cell hao hcells =>
      unfold GlobalState.aliasSet?
      rw [hao]
      dsimp only
      rw [List.lookup_isSome_iff]
      exact ⟨(i, [cell i]), List.mem_map.mpr ⟨i, List.mem_range.mpr hi, rfl⟩, beq_self_eq_true i⟩

end Cells

/-- `CreateAliasObject` ends with a cell for each field exactly when no
named struct that it goes into leads back to itself and none that the
type contains, other than those of a library, is skipped. -/
theorem field_cells_iff (table : StructTable) (v : Value) (library : String → Bool)
    (asked : Ty → Prop) (t : Ty) (objects : List AliasObject) :
    (∃ fuel r, createAliasObjectIn table v fuel t objects = some r ∧
      Built table library asked r.2 t r.1) ↔
      (∀ u, ReflTransGen (Descent.Leads (parts table skipStructType)) t u →
        ¬ Recursive table skipStructType u) ∧
      ∀ u, ReflTransGen (Descent.Leads (parts table (exempt library))) t u →
        Celled library asked u := by
  rw [← ends_iff_not_recursive]
  constructor
  · rintro ⟨fuel, r, hr, hbuilt⟩
    refine ⟨⟨fuel, ?_⟩, (built_iff fuel t objects r hr List.prefix_rfl).mp hbuilt⟩
    rw [← createAliasObjectIn_isSome (v := v) fuel t objects, hr]
    rfl
  · rintro ⟨⟨fuel, hends⟩, hcelled⟩
    rw [← createAliasObjectIn_isSome (v := v) fuel t objects] at hends
    obtain ⟨r, hr⟩ := Option.isSome_iff_exists.mp hends
    exact ⟨fuel, r, hr, (built_iff fuel t objects r hr List.prefix_rfl).mpr hcelled⟩

/-- The structs of the C library. -/
def ioStruct (name : String) : Bool := name.toList.take 11 == "struct._IO_".toList

def fooTable : StructTable :=
  [("struct.foo", [.int 32, .int 8, .int 8, .ptr (.int 8), .array (.int 8), .ptr (.int 32)])]

/-- `foo_t` of the test program is skipped. -/
theorem foo_without_cells : ¬ ∀ (table : StructTable) (v : Value) (t : Ty)
    (objects : List AliasObject), Sized table → ∃ fuel r,
      createAliasObjectIn table v fuel t objects = some r ∧
        Built table ioStruct (fun _ => True) r.2 t r.1 := by
  intro h
  have hsized : Sized fooTable := by
    intro p hp t ht
    obtain rfl := List.mem_singleton.mp hp
    refine ⟨2, ?_⟩
    revert t
    decide
  obtain ⟨fuel, r, hr, hbuilt⟩ := h fooTable (.global "f") (.struct (some "struct.foo") []) [] hsized
  cases fuel with
  | zero => cases hr
  | succ fuel =>
      cases hr
      exact not_built_skipped (by decide) rfl hbuilt

end Nova

end Oat

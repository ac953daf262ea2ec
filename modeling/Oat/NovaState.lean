import Mathlib.Algebra.Group.Nat.Defs
import Mathlib.Data.List.AList
import Oat.Sweep

/-!
# The points-to and taint analysis of `Nova.cpp`

The state of the pass is a heap of alias objects, tuple sets and
instruction sets, which the maps of the state share by reference, as the
pass shares them by pointer. A tuple is its two fields. Locations are
the alias objects without a type and without maps, so that these are
never missing elsewhere; the checks of the source for a missing alias
object, set or tuple are on pointers that are always set, and are not
modelled.

A type is the tree of its parts. The pass does not look into a struct
that `SkipStructType` skips, so its fields may be left out.
-/

namespace Oat

namespace Nova

/-! ## Values and instructions -/

inductive Ty where
  | int (width : Nat)
  | floating (width : Nat)
  | ptr (pointee : Ty)
  | array (elem : Ty)
  | struct (name : Option String) (fields : List Ty)   -- a literal struct has no name
  | other
deriving Repr

def Ty.isStructTy : Ty → Bool
  | .struct _ _ => true
  | _ => false

/-- What `getPointerElementType` of an address operand is asked for. -/
inductive Shape where
  | array
  | struct
  | scalar
deriving Repr, DecidableEq

/-- A `Value *`. An index of a getelementptr is the value of a
`ConstantInt`, or `none`. -/
inductive Value where
  | null
  | global (name : String)
  | param (fn : String) (i : Nat)
  | inst (fn : String) (id : Nat)
  | constant (id : Int)
  | gepExpr (op : Value) (pointee : Shape) (idx : List (Option Nat))
deriving Repr, DecidableEq

inductive InstKind where
  | alloca (type : Ty)
  | binOp (op1 op2 : Value)
  | load (op : Value)
  | store (v op : Value)
  | gep (op : Value) (pointee : Shape) (idx : List (Option Nat))
  | ret (v : Value)        -- `null` in a void function
  | bitCast (op : Value)
  | call (callee : Option String) (args : List Value)
  | other
deriving Repr

structure Inst where
  fn : String
  id : Nat
  kind : InstKind
deriving Repr

/-- The instruction as a value. -/
def Inst.self (i : Inst) : Value := .inst i.fn i.id

/-- `sccs` is what `scc_iterator` yields, with blocks by number. A
declaration has no blocks. -/
structure Function where
  name : String
  params : Nat
  blocks : List (List Inst)
  sccs : List (List Nat)
deriving Repr

structure Module where
  globals : List (String × Ty)   -- with the type pointed to
  functions : List Function
  annotations : List Value       -- the values in `llvm.global.annotations`
deriving Repr

def Module.function? (m : Module) (name : String) : Option Function :=
  m.functions.find? fun f => f.name = name

def Module.insts (m : Module) : List Inst := m.functions.flatMap fun f => f.blocks.flatten

theorem find?_of_nodup {α β : Type} [DecidableEq β] {key : α → β} {l : List α}
    (hnodup : (l.map key).Nodup) {a : α} (ha : a ∈ l) :
    l.find? (fun x => key x = key a) = some a := by
  cases hfind : l.find? fun x => key x = key a with
  | none => exact absurd (List.find?_eq_none.mp hfind a ha) (by simp)
  | some x =>
      have hkey : key x = key a := by simpa using List.find?_some hfind
      exact congrArg some
        (List.inj_on_of_nodup_map hnodup (List.mem_of_find?_eq_some hfind) ha hkey)

/-! ## The global state -/

abbrev AliasObjectRef := Nat
abbrev TupleSetRef := Nat
abbrev InstSetRef := Nat

structure AliasObjectTuple where
  offset : Nat
  ao : AliasObjectRef
deriving Repr, DecidableEq

abbrev AliasMap := List (Nat × List AliasObjectRef)
abbrev LocalTaintMap := List (Nat × List Value)

inductive AliasObject where
  | location (val : Value)
  | object (val : Value) (type : Ty) (isStruct : Bool) (aliasMap : AliasMap)
      (taintMap : LocalTaintMap)
deriving Repr

def AliasObject.val : AliasObject → Value
  | .location val => val
  | .object val _ _ _ _ => val

/-- The map to `none` is the NULL pointer that a cast may put into the
points-to map. -/
structure GlobalState where
  objects : List AliasObject
  tupleSets : List (List AliasObjectTuple)
  instSets : List (List Value)
  pMap : AList fun _ : Value => Option TupleSetRef
  tMap : AList fun _ : Value => InstSetRef
  vMap : List Value       -- the calls mapped to true
  ci : Value
  senVarSet : List Value

def GlobalState.empty : GlobalState := ⟨[], [], [], ∅, ∅, [], .null, []⟩

namespace GlobalState

variable (gs : GlobalState)

/-- The tuple set of a value, when it has an entry and this is not NULL. -/
def pts? (v : Value) : Option TupleSetRef := (gs.pMap.lookup v).join

def tupleSet (r : TupleSetRef) : List AliasObjectTuple := gs.tupleSets[r]?.getD []

def instSet (r : InstSetRef) : List Value := gs.instSets[r]?.getD []

def tuplesOf (v : Value) : List AliasObjectTuple := ((gs.pts? v).map gs.tupleSet).getD []

/-- `(*aliasMap)[offset]`, when there is a map and the offset is in it. -/
def aliasSet? (t : AliasObjectTuple) : Option (List AliasObjectRef) :=
  match gs.objects[t.ao]? with
  | some (.object _ _ _ aliasMap _) => aliasMap.lookup t.offset
  | _ => none

def setPts (v : Value) (r : Option TupleSetRef) : GlobalState :=
  { gs with pMap := gs.pMap.insert v r }

/-- `pMap[v] = ts` for a new set. -/
def newPts (v : Value) (ts : List AliasObjectTuple) : GlobalState :=
  { gs with tupleSets := gs.tupleSets ++ [ts], pMap := gs.pMap.insert v (some gs.tupleSets.length) }

def insertTuples (r : TupleSetRef) (ts : List AliasObjectTuple) : GlobalState :=
  { gs with tupleSets := gs.tupleSets.modify r fun s => setInsertAll s ts }

def setTaint (v : Value) (r : InstSetRef) : GlobalState := { gs with tMap := gs.tMap.insert v r }

def newTaint (v : Value) (is : List Value) : GlobalState :=
  { gs with instSets := gs.instSets ++ [is], tMap := gs.tMap.insert v gs.instSets.length }

def insertInsts (r : InstSetRef) (is : List Value) : GlobalState :=
  { gs with instSets := gs.instSets.modify r fun s => setInsertAll s is }

end GlobalState

/-- Put something into the set a map has at an offset. -/
def insertAt {α : Type} [DecidableEq α] (offset : Nat) (l : List α) :
    List (Nat × List α) → List (Nat × List α)
  | [] => []
  | (o, s) :: rest =>
      if o = offset then (o, setInsertAll s l) :: rest else (o, s) :: insertAt offset l rest

def AliasObject.insertAliases (offset : Nat) (aos : List AliasObjectRef) : AliasObject → AliasObject
  | .location val => .location val
  | .object val type isStruct aliasMap taintMap =>
      .object val type isStruct (insertAt offset aos aliasMap) taintMap

def AliasObject.setTaintMap (map : LocalTaintMap) : AliasObject → AliasObject
  | .location val => .location val
  | .object val type isStruct aliasMap _ => .object val type isStruct aliasMap map

/-! ## Alias objects -/

/-- `compare` is 0 on equal strings: this skips each struct whose name
does not begin with `struct.IO_`. -/
def skipStructType (name : Option String) : Bool :=
  match name with
  | some name => name.toList.take 10 != "struct.IO_".toList
  | none => false

mutual

/-- `CreateAliasObject`, on the heap of alias objects. -/
def createAliasObject (v : Value) : Ty → List AliasObject → AliasObjectRef × List AliasObject
  | .struct name fields, objects =>
      if skipStructType name then
        let (loc, objects) := (objects.length, objects ++ [.location v])
        (objects.length, objects ++ [.object v (.struct name fields) false [(0, [loc])] []])
      else
        let (aliasMap, objects) := createFields v 0 fields objects
        (objects.length, objects ++ [.object v (.struct name fields) true aliasMap []])
  | .ptr pointee, objects =>
      let (ao, objects) := createAliasObject v pointee objects
      (objects.length, objects ++ [.object v (.ptr pointee) false [(0, [ao])] []])
  | type, objects =>
      let (loc, objects) := (objects.length, objects ++ [.location v])
      (objects.length, objects ++ [.object v type false [(0, [loc])] []])

def createFields (v : Value) (i : Nat) : List Ty → List AliasObject → AliasMap × List AliasObject
  | [], objects => ([], objects)
  | type :: types, objects =>
      let (ao, objects) := createAliasObject v type objects
      let (aliasMap, objects) := createFields v (i + 1) types objects
      ((i, [ao]) :: aliasMap, objects)

end

/-- An object of its own for `v`, and a tuple set with its start. -/
def GlobalState.newObject (gs : GlobalState) (v : Value) (type : Ty) : GlobalState :=
  let (ao, objects) := createAliasObject v type gs.objects
  { gs with objects := objects }.newPts v [⟨0, ao⟩]

def initializeGS (gs : GlobalState) (m : Module) : GlobalState :=
  m.globals.foldl (fun gs g => (gs.newObject (.global g.1) g.2).newTaint (.global g.1) []) gs

/-! ## Points-to rules -/

def updatePtoAlloca (gs : GlobalState) (self : Value) (type : Ty) : GlobalState :=
  gs.newObject self type

def updatePtoBinOp (gs : GlobalState) (self op1 op2 : Value) : GlobalState :=
  let ts1 := gs.tuplesOf op1
  let ts2 := gs.tuplesOf op2
  match gs.pts? self with
  | some ts => (gs.insertTuples ts ts1).insertTuples ts ts2
  | none => gs.newPts self (setInsertAll (setInsertAll [] ts1) ts2)

/-- The tuples of a load; none when an object has nothing at the offset. -/
def loadTuples (gs : GlobalState) : List AliasObjectTuple → Option (List AliasObjectTuple)
  | [] => some []
  | t :: ts =>
      match gs.aliasSet? t with
      | none => none
      | some aos => (loadTuples gs ts).map fun nts => aos.map (AliasObjectTuple.mk 0) ++ nts

def updatePtoLoad (gs : GlobalState) (self op : Value) : GlobalState :=
  match gs.pts? op with
  | none => gs
  | some ts =>
      match loadTuples gs (gs.tupleSet ts) with
      | none => gs
      | some nts => gs.newPts self nts

/-- The second index, as an `uint32_t`. -/
def gepOffset (idx : List (Option Nat)) : Nat := ((idx[1]?.join).getD 0) % 2 ^ 32

/-- Each tuple moved to a field of its object. -/
def atField (off : Nat) (ts : List AliasObjectTuple) : List AliasObjectTuple :=
  ts.map fun t => ⟨off, t.ao⟩

def handlePtoGEPOperator (gs : GlobalState) (gop op : Value) (pointee : Shape)
    (idx : List (Option Nat)) : GlobalState :=
  if idx.head?.join.isNone then gs
  else
    match gs.pts? op with
    | none => gs
    | some ts =>
        match pointee with
        | .array => gs.setPts gop (some ts)
        | .struct => gs.newPts gop (atField (gepOffset idx) (gs.tupleSet ts))
        | .scalar => gs

def updatePtoGEP (gs : GlobalState) (self op : Value) (pointee : Shape)
    (idx : List (Option Nat)) : GlobalState :=
  match gs.pts? op with
  | none => gs
  | some ts =>
      match pointee with
      | .array => gs.setPts self (some ts)
      | .struct => gs.newPts self (atField (gepOffset idx) (gs.tupleSet ts))
      | .scalar => gs.setPts self (some ts)

/-- `isa<GEPOperator>`: a constant expression, or an instruction. -/
def Module.gepOperator? (m : Module) : Value → Option (Value × Shape × List (Option Nat))
  | .gepExpr op pointee idx => some (op, pointee, idx)
  | v =>
      match m.insts.find? fun i => i.self = v with
      | some ⟨_, _, .gep op pointee idx⟩ => some (op, pointee, idx)
      | _ => none

/-- `HandlePtoGEPOperator` on the pointer operand of a store. -/
def handleStoreGEP (m : Module) (gs : GlobalState) (op : Value) : GlobalState :=
  match m.gepOperator? op with
  | some (base, pointee, idx) => handlePtoGEPOperator gs op base pointee idx
  | none => gs

/-- The loop over the tuples of the address: it ends at the first object
that has nothing at the offset. -/
def storeAliases (vaos : List AliasObjectRef) : List AliasObjectTuple → GlobalState → GlobalState
  | [], gs => gs
  | t :: ts, gs =>
      match gs.aliasSet? t with
      | none => gs
      | some _ =>
          storeAliases vaos ts
            { gs with objects := gs.objects.modify t.ao (AliasObject.insertAliases t.offset vaos) }

def updatePtoStore (m : Module) (gs : GlobalState) (v op : Value) : GlobalState :=
  if gs.pMap.lookup v = none then gs
  else
    let gs := handleStoreGEP m gs op
    match gs.pts? op, gs.pts? v with
    | some ots, some vts =>
        storeAliases ((gs.tupleSet vts).map fun t => t.ao) (gs.tupleSet ots) gs
    | _, _ => gs

def updatePtoRet (gs : GlobalState) (ret : Value) : GlobalState :=
  match gs.pts? ret, gs.pts? gs.ci with
  | some ts, some nts => gs.insertTuples nts (gs.tupleSet ts)
  | some ts, none => gs.setPts gs.ci (some ts)
  | none, _ => gs

def updatePtoBitCast (gs : GlobalState) (self op : Value) : GlobalState :=
  gs.setPts self (gs.pts? op)

/-! ## Taint rules -/

def taintOf (gs : GlobalState) (v : Value) : List Value :=
  ((gs.tMap.lookup v).map gs.instSet).getD []

/-- Nothing is recorded for an alloca. -/
def updateTaintAlloca (gs : GlobalState) (_ : Value) : GlobalState := gs

def updateTaintBinOp (gs : GlobalState) (self op1 op2 : Value) : GlobalState :=
  let is1 := taintOf gs op1
  let is2 := taintOf gs op2
  match gs.tMap.lookup self with
  | some is => ((gs.insertInsts is is1).insertInsts is is2).insertInsts is [self]
  | none => gs.newTaint self (setInsert (setInsertAll (setInsertAll [] is1) is2) self)

/-- The taint map of an object with an entry at the offset. -/
def withEntry (offset : Nat) (map : LocalTaintMap) : LocalTaintMap :=
  if (map.lookup offset).isSome then map else map ++ [(offset, [])]

def taintMap? (gs : GlobalState) (ao : AliasObjectRef) : Option LocalTaintMap :=
  match gs.objects[ao]? with
  | some (.object _ _ _ _ taintMap) => some taintMap
  | _ => none

def setTaintMap (gs : GlobalState) (ao : AliasObjectRef) (map : LocalTaintMap) : GlobalState :=
  { gs with objects := gs.objects.modify ao (AliasObject.setTaintMap map) }

/-- The loop over the tuples of the address, which gathers `bis`; it ends
at a location. -/
def loadTaints (bis : List Value) :
    List AliasObjectTuple → GlobalState → Option (List Value) × GlobalState
  | [], gs => (some bis, gs)
  | t :: ts, gs =>
      match taintMap? gs t.ao with
      | none => (none, gs)
      | some map =>
          let map := withEntry t.offset map
          loadTaints (setInsertAll bis ((map.lookup t.offset).getD [])) ts (setTaintMap gs t.ao map)

def updateTaintLoad (gs : GlobalState) (self op : Value) : GlobalState :=
  match gs.pts? op with
  | none => gs
  | some ts =>
      match loadTaints [] (gs.tupleSet ts) gs with
      | (none, gs) => gs
      | (some bis, gs) => gs.newTaint self (setInsertAll (setInsert bis self) (taintOf gs self))

def storeTaints (is : List Value) : List AliasObjectTuple → GlobalState → GlobalState
  | [], gs => gs
  | t :: ts, gs =>
      match taintMap? gs t.ao with
      | none => gs
      | some map =>
          storeTaints is ts (setTaintMap gs t.ao (insertAt t.offset is (withEntry t.offset map)))

def updateTaintStore (m : Module) (gs : GlobalState) (self v op : Value) : GlobalState :=
  let vis := taintOf gs v
  let gs := handleStoreGEP m gs op
  match gs.pts? op with
  | none => gs
  | some ts => storeTaints (setInsert vis self) (gs.tupleSet ts) gs

def updateTaintGEP (gs : GlobalState) (self op : Value) : GlobalState :=
  gs.newTaint self (setInsert (taintOf gs op) self)

def updateTaintRet (gs : GlobalState) (ret : Value) : GlobalState :=
  match gs.tMap.lookup ret, gs.tMap.lookup gs.ci with
  | some is, some nis => gs.insertInsts nis (gs.instSet is)
  | some is, none => gs.setTaint gs.ci is
  | none, _ => gs

def updateTaintBitCast (gs : GlobalState) (self op : Value) : GlobalState :=
  match gs.tMap.lookup op with
  | some is => (gs.insertInsts is [self]).setTaint self is
  | none => gs.newTaint self [self]

/-! ## Dispatch -/

def pointsToAnalysis (m : Module) (gs : GlobalState) (i : Inst) : GlobalState :=
  match i.kind with
  | .alloca type => updatePtoAlloca gs i.self type
  | .binOp op1 op2 => updatePtoBinOp gs i.self op1 op2
  | .load op => updatePtoLoad gs i.self op
  | .store v op => updatePtoStore m gs v op
  | .gep op pointee idx => updatePtoGEP gs i.self op pointee idx
  | .ret v => updatePtoRet gs v
  | .bitCast op => updatePtoBitCast gs i.self op
  | .call _ _ => gs
  | .other => gs

def taintAnalysis (m : Module) (gs : GlobalState) (i : Inst) : GlobalState :=
  match i.kind with
  | .alloca _ => updateTaintAlloca gs i.self
  | .binOp op1 op2 => updateTaintBinOp gs i.self op1 op2
  | .load op => updateTaintLoad gs i.self op
  | .store v op => updateTaintStore m gs i.self v op
  | .gep op _ _ => updateTaintGEP gs i.self op
  | .ret v => updateTaintRet gs v
  | .bitCast op => updateTaintBitCast gs i.self op
  | .call _ _ => gs
  | .other => gs

def dispatchClients (m : Module) (gs : GlobalState) (i : Inst) : GlobalState :=
  taintAnalysis m (pointsToAnalysis m gs i) i

/-! ## Calls and traversal -/

/-- The callee, at the first visit of a call. -/
def resolveCall (gs : GlobalState) (call : Value) (callee : Option String) :
    Option String × GlobalState :=
  if call ∈ gs.vMap then (none, gs) else (callee, { gs with vMap := call :: gs.vMap })

/-- One parameter: its entries are replaced by those of the argument, if
this has both. -/
def initializeParam (gs : GlobalState) (var arg : Value) : GlobalState :=
  match gs.pMap.lookup arg, gs.tMap.lookup arg with
  | some ts, some is => (gs.setPts var ts).setTaint var is
  | _, _ => gs

def initializeFunction (gs : GlobalState) (f : Function) (call : Value) (args : List Value) :
    GlobalState :=
  (((List.range f.params).map (Value.param f.name)).zip args).foldl
    (fun gs p => initializeParam gs p.1 p.2) { gs with ci := call }

/-- The arguments `traverse` and `visitInst` have in common: what a call
does with the body of the callee. -/
def handleCall (m : Module) (traverse : GlobalState → Function → Option GlobalState)
    (gs : GlobalState) (call : Value) (callee : Option String) (args : List Value) :
    Option GlobalState :=
  match resolveCall gs call callee with
  | (none, gs) => some gs
  | (some name, gs) =>
      if name = "llvm.var.annotation" then
        some { gs with senVarSet := setInsert gs.senVarSet (args.headD .null) }
      else
        match m.function? name with
        | some f =>
            if f.blocks.isEmpty then some gs
            else traverse (initializeFunction gs f call args) f
        | none => some gs

def visitInst (m : Module) (traverse : GlobalState → Function → Option GlobalState)
    (gs : GlobalState) (i : Inst) : Option GlobalState :=
  match i.kind with
  | .call callee args => handleCall m traverse gs i.self callee args
  | _ => some (dispatchClients m gs i)

def visitSCC (m : Module) (traverse : GlobalState → Function → Option GlobalState)
    (gs : GlobalState) (scc : List (List Inst)) : Option GlobalState :=
  scc.flatten.foldlM (visitInst m traverse) gs

def maxRuns : Nat := 1

/-- `LongestUseDefChain` is `MAX_RUNS`. -/
def handleLoop (m : Module) (traverse : GlobalState → Function → Option GlobalState)
    (gs : GlobalState) (scc : List (List Inst)) : Option GlobalState :=
  (List.range maxRuns).foldlM (fun gs _ => visitSCC m traverse gs scc) gs

/-- Components and the blocks in them, in the opposite of the iterator's order. -/
def reverseSCC (f : Function) : List (List (List Inst)) :=
  (f.sccs.map fun scc => (scc.map fun b => f.blocks[b]?.getD []).reverse).reverse

/-- `Traversal`. The number bounds the depth of calls; each call that is
followed has not been followed before. -/
def traversal (m : Module) : Nat → GlobalState → Function → Option GlobalState
  | 0, _, _ => none
  | fuel + 1, gs, f =>
      (reverseSCC f).foldlM
        (fun gs scc =>
          if 1 < scc.length then handleLoop m (traversal m fuel) gs scc
          else visitSCC m (traversal m fuel) gs scc) gs

def getAnnotatedVariables (gs : GlobalState) (m : Module) : GlobalState :=
  { gs with senVarSet := setInsertAll gs.senVarSet m.annotations }

/-- `runOnModule` up to the instrumentation, which uses the state it returns. -/
def analyse (m : Module) (fuel : Nat) : Option GlobalState := do
  let main ← m.function? "main"
  let gs ← traversal m fuel (initializeGS .empty m) main
  return getAnnotatedVariables gs m

end Nova

end Oat

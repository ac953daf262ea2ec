import Oat.TaStore
import Oat.TaBlake2s

/-!
# The measurement context: `cfa.h` and `cfa.c`

The global state of the TA and the operations of `cfa.c` on it:
`cfa_init`, `cfa_quote`, `hashmap_lookup`, `hashmap_update`.

Memory is explicit where the code depends on it. A `node_t` lives in
`nodes`, the list of nodes `TEE_Malloc` has handed out, and a
`node_t *` is an index into it; the chains of the def-use map run
through `next`. A trace buffer is kept with its index as a `TraceBuf`:
the block behind the pointer, `none` for NULL, and the next slot to
write. `mallocs` says which of the `TEE_Malloc` calls to come
succeed. What C leaves undefined (`key % 0`, an access through NULL or
out of bounds) is a `Trap`, and so is a walk along a cyclic chain, which
never ends.
-/

namespace Oat

namespace Ta

/-! ## Constants and data -/

def cfvEventCtrl : UInt64 := 0x00000010
def cfvEventDataDef : UInt64 := 0x00000020
def cfvEventDataUse : UInt64 := 0x00000040
def cfvEventHintCondbr : UInt64 := 0x00000080
def cfvEventHintIcall : UInt64 := 0x00000100
def cfvEventHintIbr : UInt64 := 0x00000200

def maxCondEvents : Nat := 10 * 1000
def maxIbranchEvents : Nat := 1000

def hashmapSize : Nat := 0x1001

structure CfaEvent where
  etype : UInt64
  a : UInt64
  b : UInt64
deriving Repr, DecidableEq

/-- `node_t`; `next` is an index into the heap. -/
structure Node where
  key : UInt64
  value : UInt64
  next : Option Nat
deriving Repr, DecidableEq

structure Hashmap where
  bucket : List (Option Nat)
  p : UInt64
deriving Repr, DecidableEq

/-- A trace buffer of the context: the block its pointer refers to, and
its index. -/
structure TraceBuf (α : Type) where
  block : Option (List α)
  idx : Nat
deriving Repr, DecidableEq

/-- `cfa_ctx_t`; `condBuf` is `cond_buf` with `cond_buf_idx`, `iaddrBuf`
is `iaddr_buf` with `iaddr_buf_idx`. -/
structure CfaCtx where
  p : UInt64
  a : UInt64
  aa : UInt64
  hash : UInt64
  p32 : UInt32
  a32 : UInt32
  aa32 : UInt32
  hash32 : UInt32
  S : Blake2sState
  digest : List UInt8
  condBuf : TraceBuf UInt8
  iaddrBuf : TraceBuf UInt64
  secDataHashmap : Hashmap
  initialized : Bool
deriving Repr, DecidableEq

/-- The global `cfa_ctx` before anything has run. -/
def CfaCtx.zero : CfaCtx where
  p := 0
  a := 0
  aa := 0
  hash := 0
  p32 := 0
  a32 := 0
  aa32 := 0
  hash32 := 0
  S := Blake2sState.zero
  digest := List.replicate blake2sBlockbytes 0
  condBuf := ⟨none, 0⟩
  iaddrBuf := ⟨none, 0⟩
  secDataHashmap := ⟨List.replicate hashmapSize none, 0⟩
  initialized := false

/-- A `DMSG` of `data_event`: the use check failed for want of a
definition, or against the recorded value it prints. -/
inductive UseCheckFail where
  | noDefineRecord (addr value : UInt64)
  | valueNotMatch (addr value recorded : UInt64)
deriving Repr, DecidableEq

/-- The TA: its globals, its heap, the secure store, and its log. -/
structure TaState where
  ctx : CfaCtx
  nodes : List Node
  mallocs : Nat → Bool
  store : Store
  dmsg : List UseCheckFail

namespace TaState

def fresh (store : Store) (mallocs : Nat → Bool) : TaState where
  ctx := CfaCtx.zero
  nodes := []
  mallocs := mallocs
  store := store
  dmsg := []

def MallocsSucceed (s : TaState) : Prop := ∀ n, s.mallocs n = true

end TaState

/-! ## Memory -/

def teeMalloc (s : TaState) : Bool × TaState :=
  (s.mallocs 0, { s with mallocs := fun n => s.mallocs (n + 1) })

namespace TraceBuf

variable {α : Type}

def read (t : TraceBuf α) (n : Nat) : Except Trap (List α) :=
  if n = 0 then .ok []
  else
    match t.block with
    | none => .error .unallocatedBuffer
    | some block => if n ≤ block.length then .ok (block.take n) else .error .outOfBounds

/-- `buf[idx++] = x`. -/
def write (t : TraceBuf α) (x : α) : Except Trap (TraceBuf α) :=
  match t.block with
  | none => .error .unallocatedBuffer
  | some block =>
      if t.idx < block.length then .ok ⟨some (block.set t.idx x), t.idx + 1⟩
      else .error .outOfBounds

end TraceBuf

/-! ## Init and quote -/

/-- `cfa_init`. Neither allocation is checked; the result, always 0, is
read by nobody. -/
def cfaInit (s : TaState) : TaState :=
  let ctx := { s.ctx with
    p := 10000001
    a := 7
    aa := 7
    hash := 0
    p32 := 10000001
    a32 := 7
    aa32 := 7
    hash32 := 0
    secDataHashmap := ⟨List.replicate hashmapSize none, UInt64.ofNat hashmapSize⟩
    S := blake2sInit s.ctx.S blake2sOutbytes }
  let (condOk, s) := teeMalloc s
  let (iaddrOk, s) := teeMalloc s
  { s with
    ctx := { ctx with
      condBuf := ⟨if condOk then some (List.replicate maxCondEvents 0) else none, 0⟩
      iaddrBuf := ⟨if iaddrOk then some (List.replicate maxIbranchEvents 0) else none, 0⟩
      initialized := true } }

/-- `cfa_quote`. When `blake2s_final` refuses, the old digest stays. -/
def cfaQuote (s : TaState) : TaState :=
  let (out, S) := blake2sFinal s.ctx.S blake2sOutbytes
  { s with
    ctx := { s.ctx with
      S := S
      digest :=
        match out with
        | none => s.ctx.digest
        | some bytes => memcpy s.ctx.digest 0 bytes
      initialized := false } }

/-! ## The def-use map -/

/-- The walk of `hashmap_lookup` along a chain. A chain that ends visits
no node twice, so `nodes.length` steps are enough for it. -/
def hashmapWalk (nodes : List Node) (key : UInt64) : Nat → Option Nat →
    Except Trap (Option Nat)
  | _, none => .ok none
  | 0, some _ => .error .diverges
  | fuel + 1, some ptr =>
      match nodes[ptr]? with
      | none => .error .outOfBounds
      | some node =>
          if node.key ≠ key then hashmapWalk nodes key fuel node.next else .ok (some ptr)

/-- `hmap->bucket[key % hmap->p]`. -/
def hashmapBucket (hmap : Hashmap) (key : UInt64) : Except Trap (Option Nat) :=
  if hmap.p = 0 then .error .divByZero
  else
    match hmap.bucket[(key % hmap.p).toNat]? with
    | none => .error .outOfBounds
    | some ptr => .ok ptr

/-- `hashmap_lookup`: the node of a key, NULL when its chain has none. -/
def hashmapLookup (nodes : List Node) (hmap : Hashmap) (key : UInt64) :
    Except Trap (Option Nat) := do
  let ptr ← hashmapBucket hmap key
  hashmapWalk nodes key nodes.length ptr

/-- `hashmap_update`. The last statement of the insertion branch,
`ptr = new_node`, assigns the local variable: the new node points at the
chain, but no bucket comes to point at the new node. -/
def hashmapUpdate (s : TaState) (key value : UInt64) : Except Trap TaState := do
  let found ← hashmapLookup s.nodes s.ctx.secDataHashmap key
  match found with
  | some node => -- modify existing node
      pure { s with nodes := s.nodes.modify node fun n => { n with value := value } }
  | none => -- insert new node
      match teeMalloc s with
      | (false, _) => .error .nullPointer -- `new_node->key = key` through NULL
      | (true, s) =>
          let ptr ← hashmapBucket s.ctx.secDataHashmap key
          pure { s with nodes := s.nodes ++ [⟨key, value, ptr⟩] }

end Ta

end Oat

/-
# A bucketed index of named items

Items are looked up by a short key. The key's hash picks a bucket, and the
items of a bucket form a chain through one arena, in the order in which they
were inserted. A handle to an item stays good until the item is removed.

Walks along a chain are bounded by the number of cells, which no chain
exceeds.

Key definitions: `Index`, `Index.insert`, `Index.erase`, `Index.eraseWhere`,
`Index.chain`, `Index.toList`, `Index.find?`.
-/
import SignalRegistry.Arena
import SignalRegistry.Text.Utf8

namespace SignalRegistry

/-- The weights of a key's bytes, used round and round. -/
def hashWeights : List UInt32 := [47, 2, 43, 3, 41, 5, 37, 7, 31, 11, 29, 13, 23, 17, 19]

/-- The sum of the bytes of a key, each times the weight of its place. -/
def hashBytes (bytes : Octets) : UInt32 :=
  bytes.zipIdx.foldl (fun sum (b, i) =>
    sum + b.toUInt32 * hashWeights.getD (i % hashWeights.length) 0) 0

/-- The hash of a key is that of its UTF-8 bytes. -/
def hashKey (key : String) : UInt32 := hashBytes (Utf8.ofString key)

/-- A number of buckets that keys can be spread over. -/
class Spreads (buckets : Nat) : Prop where
  pos : 0 < buckets

instance {buckets : Nat} [h : @NeZero Nat Zero.ofOfNat0 buckets] : Spreads buckets :=
  ⟨Nat.pos_of_ne_zero h.out⟩

/-- An item with the key it is looked up by. -/
class HasKey (α : Type) where
  key : α → String

/-- An item and the handle of the next one in its chain. -/
structure Link (α : Type) where
  item : α
  next : Option Handle

/-- The chain from a handle on, at most `fuel` items of it. -/
def walk {α : Type} (arena : Arena (Link α)) : Nat → Option Handle → List (Handle × α)
  | _, none => []
  | 0, _ => []
  | fuel + 1, some h =>
    match arena.get? h with
    | none => []
    | some link => (h, link.item) :: walk arena fuel link.next

/-- The chains of all buckets in one arena. -/
structure Index (α : Type) (buckets : Nat) where
  /-- The first item of each bucket. -/
  heads : Vector (Option Handle) buckets
  arena : Arena (Link α)
  size : Nat

namespace Index

variable {α : Type} {buckets : Nat}

def empty : Index α buckets := ⟨Vector.replicate buckets none, .empty, 0⟩

instance : Inhabited (Index α buckets) := ⟨empty⟩

/-- The bucket of a key. -/
def bucketFor (buckets : Nat) [Spreads buckets] (key : String) : Fin buckets :=
  ⟨(hashKey key).toNat % buckets, Nat.mod_lt _ Spreads.pos⟩

/-- The item a handle leads to. -/
def get? (t : Index α buckets) (h : Handle) : Option α := (t.arena.get? h).map Link.item

def contains (t : Index α buckets) (h : Handle) : Bool := (t.get? h).isSome

/-- The handle after `h` in its chain. -/
def next? (t : Index α buckets) (h : Handle) : Option Handle := (t.arena.get? h).bind Link.next

/-- The items after `h` in its chain. -/
def after (t : Index α buckets) (h : Handle) : List (Handle × α) :=
  walk t.arena t.arena.cells.size (t.next? h)

/-- The handle with which the chain of a bucket begins. -/
def head (t : Index α buckets) (b : Fin buckets) : Option Handle := t.heads[b]

/-- The items of a bucket with their handles, the earliest first. -/
def bucket (t : Index α buckets) (b : Fin buckets) : List (Handle × α) :=
  walk t.arena t.arena.cells.size (t.head b)

/-- The items in the bucket of a key, whatever their own keys. -/
def chain [Spreads buckets] (t : Index α buckets) (key : String) : List (Handle × α) :=
  t.bucket (bucketFor buckets key)

/-- The handle with which the chain of a key begins. -/
def first? [Spreads buckets] (t : Index α buckets) (key : String) : Option Handle :=
  t.head (bucketFor buckets key)

/-- All items, bucket by bucket. -/
def toList (t : Index α buckets) : List (Handle × α) :=
  t.heads.toList.flatMap (walk t.arena t.arena.cells.size)

/-- All items in the order of `toList`. -/
def items (t : Index α buckets) : List α := t.toList.map Prod.snd

/-- Puts `next` after the item of `last`, or at the head of the bucket if
there is no last item. -/
def linkAfter (t : Index α buckets) (b : Fin buckets) (last next : Option Handle) : Index α buckets :=
  match last with
  | some h => { t with arena := t.arena.modify h fun link => { link with next := next } }
  | none => { t with heads := t.heads.set b next }

variable [HasKey α] [Spreads buckets]

/-- Appends an item to the chain of its key. -/
def insert (t : Index α buckets) (item : α) : Index α buckets × Handle :=
  let b := bucketFor buckets (HasKey.key item)
  let last := (t.bucket b).getLast?.map Prod.fst
  let (arena, h) := t.arena.insert ⟨item, none⟩
  ({ t with arena := arena, size := t.size + 1 }.linkAfter b last (some h), h)

/-- Takes an item out of its chain and returns it; nothing happens if the
handle leads nowhere. -/
def erase (t : Index α buckets) (h : Handle) : Index α buckets × Option α :=
  match t.arena.get? h with
  | none => (t, none)
  | some link =>
    let b := bucketFor buckets (HasKey.key link.item)
    let before := ((t.bucket b).takeWhile (·.1 != h)).getLast?.map Prod.fst
    let t := t.linkAfter b before link.next
    ({ t with arena := t.arena.erase h, size := t.size - 1 }, some link.item)

/-- Changes the item a handle leads to; its key must stay. -/
def modify (t : Index α buckets) (h : Handle) (f : α → α) : Index α buckets :=
  { t with arena := t.arena.modify h fun link => { link with item := f link.item } }

/-- The first item with the key that satisfies `p`. -/
def find? (t : Index α buckets) (key : String) (p : α → Bool) : Option Handle :=
  ((t.chain key).find? fun entry => HasKey.key entry.2 == key && p entry.2).map Prod.fst

/-- Removes the items of the handles, one after the other. -/
def eraseEach (t : Index α buckets) : List Handle → Index α buckets × List α
  | [] => (t, [])
  | h :: hs =>
    let (t, item) := t.erase h
    let (t, items) := t.eraseEach hs
    (t, item.toList ++ items)

/-- Removes the items that satisfy `p` and returns them in the order of
`toList`. -/
def eraseWhere (t : Index α buckets) (p : α → Bool) : Index α buckets × List α :=
  t.eraseEach ((t.toList.filter fun entry => p entry.2).map Prod.fst)

end Index
end SignalRegistry

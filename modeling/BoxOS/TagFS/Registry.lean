import Mathlib.Data.List.TakeWhile
import Mathlib.Tactic

/-!
# The tag registry

`TagRegistry` of `tag_registry.c`: the array of entries by tag id, a hash table from `(key, value)` to the id, and a
hash table from keys to their groups. `tagRegistryIntern` gives an id to a pair and `tagRegistryLookup` finds it again;
`internWithId` is what loading a registry from disk does with each record.

Strings are `CStr`, byte strings without a zero byte, so `strcmp` is equality and `strlen` the length. Chains of nodes
are lists. `none` as a returned id is `TAGFS_INVALID_TAG_ID`; allocations succeed.
-/

namespace BoxOS.TagFS

open List

/-- A tag id, `uint16_t`. -/
abbrev TagId := UInt16

/-- `TAGFS_MAX_TAG_ID`. -/
def maxTagId : Nat := 0x7FFE

/-- A C string: bytes up to the terminating zero. -/
def CStr := { bytes : List UInt8 // (0 : UInt8) ∉ bytes }

instance : DecidableEq CStr := inferInstanceAs (DecidableEq { bytes : List UInt8 // (0 : UInt8) ∉ bytes })

/-- The string in a buffer: everything before its first zero byte. -/
def CStr.ofBuffer (bytes : List UInt8) : CStr :=
  ⟨bytes.takeWhile (· ≠ 0), fun h => by simpa using mem_takeWhile_imp h⟩

def CStr.strlen (s : CStr) : Nat := s.1.length

structure TagRegistryEntry where
  key : CStr
  value : Option CStr
  flags : UInt8
  tagId : TagId
deriving DecidableEq

/-- `TagKeyGroup`; its `count` is the length of `tagIds`. -/
structure TagKeyGroup where
  key : CStr
  tagIds : List TagId
  capacity : Nat
deriving DecidableEq

structure TagRegistry where
  buckets : List (List TagId)
  byId : List (Option TagRegistryEntry)
  totalTags : Nat
  nextId : Nat
  keyBuckets : List (List TagKeyGroup)
deriving DecidableEq

/-- `TAGFS_REG_BUCKETS`. -/
def regBuckets : Nat := 512

/-- `TAGFS_KEY_BUCKETS`. -/
def keyBucketCount : Nat := 128

/-- `TAGFS_TAG_FLAG_HAS_VALUE`. -/
def flagHasValue : UInt8 := 1

/-! ## Hashing -/

/-- `hash = ((hash << 5) + hash) + c` over a string. -/
def stringHash (h : UInt32) (s : List UInt8) : UInt32 := s.foldl (fun h c => ((h <<< 5) + h) + c.toUInt32) h

/-- `registry_hash`; `58` is the colon between key and value. -/
def registryHash (key : CStr) (value : Option CStr) (bucketCount : Nat) : Nat :=
  let h := stringHash 5381 key.1
  let h := match value with
    | none => h
    | some v => stringHash (stringHash h [58]) v.1
  h.toNat % bucketCount

def keyHash (key : CStr) (bucketCount : Nat) : Nat := (stringHash 5381 key.1).toNat % bucketCount

/-! ## Key groups -/

def addToKeyGroup (group : TagKeyGroup) (t : TagId) : TagKeyGroup :=
  { group with
    tagIds := group.tagIds ++ [t]
    capacity := if group.tagIds.length ≥ group.capacity then group.capacity * 2 else group.capacity }

/-- The group of `key` in a chain, with `t` added to it. -/
def addInChain (key : CStr) (t : TagId) : List TagKeyGroup → Option (List TagKeyGroup)
  | [] => none
  | group :: rest =>
    if group.key = key then some (addToKeyGroup group t :: rest) else (addInChain key t rest).map (group :: ·)

/-- `find_or_create_key_group` followed by `add_to_key_group`: a new group goes to the head of its chain. -/
def addToKeyBuckets (keyBuckets : List (List TagKeyGroup)) (key : CStr) (t : TagId) : List (List TagKeyGroup) :=
  let bucket := keyHash key keyBuckets.length
  let chain := keyBuckets.getD bucket []
  keyBuckets.set bucket ((addInChain key t chain).getD (addToKeyGroup ⟨key, [], 8⟩ t :: chain))

variable (reg : TagRegistry)

def tagRegistryKeyGroup (key : CStr) : Option TagKeyGroup :=
  (reg.keyBuckets.getD (keyHash key reg.keyBuckets.length) []).find? (fun group => group.key = key)

/-! ## Entries -/

/-- `by_id[tag_id]`, `none` also past the capacity. -/
def TagRegistry.entryOf (t : TagId) : Option TagRegistryEntry := reg.byId.getD t.toNat none

/-- The test of `lookup_unlocked` on a node. -/
def nodeMatches (key : CStr) (value : Option CStr) (t : TagId) : Bool :=
  match reg.entryOf t with
  | some entry => entry.key = key ∧ entry.value = value
  | none => false

def lookupUnlocked (key : CStr) (value : Option CStr) : Option TagId :=
  (reg.buckets.getD (registryHash key value reg.buckets.length) []).find? (nodeMatches reg key value)

/-- `ensure_by_id_capacity`: the array doubles until `id` fits. Sixteen doublings of a non-empty array reach past every
16-bit id. -/
def ensureByIdCapacity : Nat → List (Option TagRegistryEntry) → Nat → List (Option TagRegistryEntry)
  | 0, byId, _ => byId
  | fuel + 1, byId, id =>
    if id ≥ byId.length then ensureByIdCapacity fuel (byId ++ replicate byId.length none) id else byId

/-- What `intern_unlocked` and `intern_with_id_unlocked` do once the id is settled: the entry, a node at the head of its
bucket, and a place in its key group. -/
def insertEntry (id : Nat) (key : CStr) (value : Option CStr) : TagRegistry :=
  let t := UInt16.ofNat id
  let bucket := registryHash key value reg.buckets.length
  { buckets := reg.buckets.set bucket (t :: reg.buckets.getD bucket [])
    byId := reg.byId.set id (some ⟨key, value, if value.isSome then flagHasValue else 0, t⟩)
    totalTags := reg.totalTags + 1
    nextId := if id ≥ reg.nextId then id + 1 else reg.nextId
    keyBuckets := addToKeyBuckets reg.keyBuckets key t }

/-- `intern_with_id_unlocked`. -/
def internWithId (id : Nat) (key : CStr) (value : Option CStr) : TagRegistry × Option TagId :=
  match lookupUnlocked reg key value with
  | some t => (reg, some t)
  | none =>
    if id > maxTagId then (reg, none)
    else
      let reg := { reg with byId := ensureByIdCapacity 16 reg.byId id }
      if (reg.byId.getD id none).isSome then (reg, none)
      else (insertEntry reg id key value, some (UInt16.ofNat id))

def internUnlocked (key : CStr) (value : Option CStr) : TagRegistry × Option TagId :=
  match lookupUnlocked reg key value with
  | some t => (reg, some t)
  | none =>
    if reg.nextId > maxTagId then (reg, none)
    else
      let reg := { reg with byId := ensureByIdCapacity 16 reg.byId reg.nextId }
      (insertEntry reg reg.nextId key value, some (UInt16.ofNat reg.nextId))

def tagRegistryInit : TagRegistry where
  buckets := replicate regBuckets []
  byId := replicate 64 none
  totalTags := 0
  nextId := 0
  keyBuckets := replicate keyBucketCount []

def tagRegistryIntern (key : CStr) (value : Option CStr) : TagRegistry × Option TagId :=
  internUnlocked reg key value

def tagRegistryLookup (key : CStr) (value : Option CStr) : Option TagId :=
  lookupUnlocked reg key value

def tagRegistryKey (t : TagId) : Option CStr :=
  if t.toNat < reg.nextId then (reg.entryOf t).map (·.key) else none

end BoxOS.TagFS

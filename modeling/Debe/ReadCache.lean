import Debe.IndexCipher
import Debe.Lib.Blocks
import Debe.Lib.FileStream
import Debe.Lib.Lru

/-!
# The container cache of a restore

`ReadCache` keeps containers in a pool of slots of the largest size.  The LRU map gives the
slot of a name: while there is room the next one of a counter, afterwards the slot of the
name that the insertion is about to forget.  `GetReqContainers` copies whole slots, so what
stands behind a container in its place of the array is left over from others.

The map's values are of 32 bits.  Up to 2³² slots the counter fits, and every place of the
array begins with the container asked for; with one slot more, two names come to share one.
-/

namespace Debe

open Loops

/-! ## The functions -/

/-- `ReadCache`. -/
structure ReadCache where
  readCache : Lru Bytes UInt32
  containerPool : List Bytes
  cacheSize : Nat
  currentIndex : Nat

/-- `memcpy` of the first `length` bytes of `data` to a buffer. -/
def copyTo (dest data : Bytes) (length : Nat) : Except Fault Bytes := do
  let source ← inRange (Buffer.read data 0 length)
  inRange (Buffer.write dest 0 source)

namespace ReadCache

/-- The constructor, whose slots hold what `malloc` finds. -/
def new (cacheSize : Nat) (containerPool : List Bytes) : ReadCache where
  readCache := ⟨[], cacheSize, 0⟩
  containerPool := containerPool
  cacheSize := cacheSize
  currentIndex := 0

/-- `InsertToCache`. -/
def insertToCache (c : ReadCache) (name data : Bytes) (length : Nat) : Except Fault ReadCache := do
  if c.readCache.size + 1 > c.cacheSize then
    let replaceIndex ← inRange c.readCache.pruneValue
    let slot ← inRange c.containerPool[replaceIndex.toNat]?
    let slot ← copyTo slot data length
    return { c with
      containerPool := c.containerPool.set replaceIndex.toNat slot
      readCache := c.readCache.insert name replaceIndex }
  else
    let slot ← inRange c.containerPool[c.currentIndex]?
    let slot ← copyTo slot data length
    return { c with
      containerPool := c.containerPool.set c.currentIndex slot
      readCache := c.readCache.insert name (UInt32.ofNat c.currentIndex)
      currentIndex := c.currentIndex + 1 }

/-- `ExistsInCache`. -/
def existsInCache (c : ReadCache) (name : Bytes) : Bool := c.readCache.contains name

/-- `ReadFromCache`: the slot of a name. -/
def readFromCache (c : ReadCache) (name : Bytes) : Except Fault (Bytes × ReadCache) := do
  let r ← inRange (c.readCache.get name)
  let slot ← inRange c.containerPool[r.1.toNat]?
  return (slot, { c with readCache := r.2 })

end ReadCache

/-- What `GetReqContainers` works on: the request, the cache and the count of files read. -/
structure Fetch where
  idBuffer : Bytes
  containerArray : List Bytes
  idNum : Nat
  containerCache : ReadCache
  readFromContainerFileNum : Nat

namespace Fetch

/-- A container of the cache: its whole slot. -/
def fromCache (s : Fetch) (i : Nat) (name : Bytes) : Except Fault Fetch := do
  let r ← s.containerCache.readFromCache name
  let container ← inRange s.containerArray[i]?
  let container ← copyTo container r.1 maxContainerSize
  return { s with containerArray := s.containerArray.set i container, containerCache := r.2 }

/-- A container of the disk, which goes to the cache.  The size of the file is an `int`. -/
def fromFile (files : Bytes → Option Bytes) (s : Fetch) (i : Nat) (name : Bytes) :
    Except Fault Fetch := do
  let containerIn := InStream.new.openFile (files name)
  if containerIn.isOpen then
    let readSize := (containerIn.seekg containerIn.endPos).tellg
    let containerSize := readSize.1.bmod 4294967296
    let r := (readSize.2.seekg 0).read containerSize.toNat
    let container ← inRange s.containerArray[i]?
    let container ← inRange (Buffer.write container 0 r.1)
    if (r.1.length : Int) = containerSize then
      let containerCache ← s.containerCache.insertToCache name container containerSize.toNat
      return { s with
        containerArray := s.containerArray.set i container
        containerCache := containerCache
        readFromContainerFileNum := s.readFromContainerFileNum + 1 }
    else
      .error (.exitError "read size %lu cannot match expected size: %d for container %s.\n")
  else .error (.exitError "cannot open the container: %s\n")

/-- The loop body of `GetReqContainers`. -/
def getReqContainer (files : Bytes → Option Bytes) (s : Fetch) (i : Nat) : Except Fault Fetch :=
  let containerNameStr := (s.idBuffer.drop (i * containerIDLength)).take containerIDLength
  if s.containerCache.existsInCache containerNameStr then s.fromCache i containerNameStr
  else s.fromFile files i containerNameStr

/-- `GetReqContainers`. -/
def getReqContainers (files : Bytes → Option Bytes) (s : Fetch) : Except Fault Fetch :=
  (List.range s.idNum).foldlM (getReqContainer files) s

/-- The request of the enclave: the names one behind the other, and their number. -/
def request (s : Fetch) (names : List ContainerID) : Fetch :=
  { s with
    idBuffer := Buffer.overwrite s.idBuffer 0 (names.flatMap Subtype.val)
    idNum := names.length }

/-- One call for each list of names. -/
def calls (files : Bytes → Option Bytes) (s : Fetch) (lists : List (List ContainerID)) :
    Except Fault Fetch :=
  lists.foldlM (fun s names => (s.request names).getReqContainers files) s

end Fetch

/-! ## Buffers -/

/-- A number of buffers, each for the largest container. -/
structure Allocated (n : Nat) (buffers : List Bytes) : Prop where
  length : buffers.length = n
  sizes : ∀ b ∈ buffers, b.length = maxContainerSize

theorem Allocated.get {n i : Nat} {buffers : List Bytes} (h : Allocated n buffers) (hi : i < n) :
    ∃ b, buffers[i]? = some b ∧ b.length = maxContainerSize := by
  have hi' : i < buffers.length := by
    rw [h.length]
    exact hi
  exact ⟨_, List.getElem?_eq_getElem hi', h.sizes _ (List.getElem_mem hi')⟩

theorem Allocated.set {n : Nat} {buffers : List Bytes} (h : Allocated n buffers) (i : Nat)
    {b : Bytes} (hb : b.length = maxContainerSize) : Allocated n (buffers.set i b) where
  length := by rw [List.length_set, h.length]
  sizes := by
    intro b' hb'
    obtain hold | rfl := List.mem_or_eq_of_mem_set hb'
    · exact h.sizes b' hold
    · exact hb

/-- What is copied stands in front, and the size stays. -/
theorem copyTo_ok {dest data : Bytes} {n : Nat} (hdata : n ≤ data.length) (hn : n ≤ dest.length) :
    ∃ dest', copyTo dest data n = .ok dest' ∧ dest'.length = dest.length ∧
      data.take n <+: dest' := by
  have hlen : (data.take n).length = n := List.length_take_of_le hdata
  have hfit : 0 + (data.take n).length ≤ dest.length := by
    rw [hlen, Nat.zero_add]
    exact hn
  have hread : Buffer.read data 0 n = some (data.take n) := by
    rw [Buffer.read, if_pos (by rw [Nat.zero_add]; exact hdata), List.drop_zero]
  refine ⟨Buffer.overwrite dest 0 (data.take n), ?_, Buffer.length_overwrite hfit, ?_⟩
  · refine bind_eq_ok.mpr ⟨data.take n, by rw [hread]; rfl, ?_⟩
    rw [Buffer.write, if_pos hfit]
    rfl
  · rw [Buffer.overwrite, List.take_zero, List.nil_append]
    exact List.prefix_append _ _

/-! ## The cache -/

namespace ReadCache

/-- **What the cache keeps.**  The slots in use are as many as the counter says, no two
names share one, and each begins with the container of its name. -/
structure Sound (files : Bytes → Option Bytes) (cacheSize : Nat) (c : ReadCache) : Prop where
  maxSize : c.readCache.maxSize = cacheSize
  elasticity : c.readCache.elasticity = 0
  cacheSize_eq : c.cacheSize = cacheSize
  pool : Allocated cacheSize c.containerPool
  used : c.currentIndex = c.readCache.size
  used_le : c.currentIndex ≤ cacheSize
  names : (c.readCache.keys.map Prod.fst).Nodup
  slots : (c.readCache.keys.map Prod.snd).Nodup
  held : ∀ e ∈ c.readCache.keys, e.2.toNat < c.currentIndex ∧ ∃ f slot,
    files e.1 = some f ∧ c.containerPool[e.2.toNat]? = some slot ∧ f <+: slot

variable {files : Bytes → Option Bytes} {cacheSize : Nat} {c : ReadCache} {name data f : Bytes}

theorem sound_new (files : Bytes → Option Bytes) {pool : List Bytes}
    (hpool : Allocated cacheSize pool) : Sound files cacheSize (new cacheSize pool) where
  maxSize := rfl
  elasticity := rfl
  cacheSize_eq := rfl
  pool := hpool
  used := rfl
  used_le := Nat.zero_le _
  names := List.nodup_nil
  slots := List.nodup_nil
  held := nofun

/-- The order of the names does not matter. -/
theorem Sound.perm (h : Sound files cacheSize c) {keys : List (Bytes × UInt32)}
    (hkeys : keys.Perm c.readCache.keys) :
    Sound files cacheSize { c with readCache := { c.readCache with keys := keys } } where
  maxSize := h.maxSize
  elasticity := h.elasticity
  cacheSize_eq := h.cacheSize_eq
  pool := h.pool
  used := h.used.trans hkeys.length_eq.symm
  used_le := h.used_le
  names := (hkeys.map _).nodup_iff.mpr h.names
  slots := (hkeys.map _).nodup_iff.mpr h.slots
  held := fun e he => h.held e (hkeys.mem_iff.mp he)

/-- A container in a slot that none of the names kept has. -/
theorem Sound.put (h : Sound files cacheSize c) {l : List (Bytes × UInt32)}
    (hl : l.Sublist c.readCache.keys) (hname : name ∉ c.readCache.keys.map Prod.fst)
    {index : UInt32} (hindex : index ∉ l.map Prod.snd) (hfile : files name = some f)
    {slot : Bytes} (hslot : slot.length = maxContainerSize) (hf : f <+: slot) {n : Nat}
    (hn : n = l.length + 1) (hle : c.currentIndex ≤ n) (hmax : n ≤ cacheSize)
    (hlt : index.toNat < n) :
    Sound files cacheSize { c with
      readCache := { c.readCache with keys := (name, index) :: l }
      containerPool := c.containerPool.set index.toNat slot
      currentIndex := n } where
  maxSize := h.maxSize
  elasticity := h.elasticity
  cacheSize_eq := h.cacheSize_eq
  pool := h.pool.set _ hslot
  used := hn
  used_le := hmax
  names := List.nodup_cons.mpr ⟨fun hmem => hname ((hl.map _).subset hmem),
    h.names.sublist (hl.map _)⟩
  slots := List.nodup_cons.mpr ⟨hindex, h.slots.sublist (hl.map _)⟩
  held := by
    intro e he
    obtain rfl | he := List.mem_cons.mp he
    · have hbound : index.toNat < c.containerPool.length := by
        rw [h.pool.length]
        exact Nat.lt_of_lt_of_le hlt hmax
      exact ⟨hlt, f, slot, hfile, List.getElem?_set_self hbound, hf⟩
    · obtain ⟨hlt', f', slot', hfile', hslot', hf'⟩ := h.held e (hl.subset he)
      have hne : index.toNat ≠ e.2.toNat := by
        intro heq
        exact hindex (UInt32.toNat_inj.mp heq ▸ List.mem_map_of_mem he)
      exact ⟨Nat.lt_of_lt_of_le hlt' hle, f', slot', hfile',
        by rw [List.getElem?_set_ne hne]; exact hslot', hf'⟩

/-- While there is room, the counter gives the slot. -/
theorem insertToCache_of_room (hsize : c.readCache.maxSize = c.cacheSize)
    (hused : c.currentIndex = c.readCache.size) (hroom : c.currentIndex < c.cacheSize)
    (hpool : Allocated c.cacheSize c.containerPool)
    (hname : name ∉ c.readCache.keys.map Prod.fst) {n : Nat} (hdata : n ≤ data.length)
    (hn : n ≤ maxContainerSize) :
    ∃ slot, slot.length = maxContainerSize ∧ data.take n <+: slot ∧
      c.insertToCache name data n = .ok { c with
        readCache := { c.readCache with
          keys := (name, UInt32.ofNat c.currentIndex) :: c.readCache.keys }
        containerPool := c.containerPool.set c.currentIndex slot
        currentIndex := c.currentIndex + 1 } := by
  obtain ⟨old, hold, hlen⟩ := hpool.get hroom
  obtain ⟨slot, hcopy, hslot, hbegins⟩ := copyTo_ok hdata (hn.trans hlen.ge)
  have hinsert := Lru.insert_of_room hname (by rw [← hused, hsize]; exact hroom)
    (UInt32.ofNat c.currentIndex)
  refine ⟨slot, hslot.trans hlen, hbegins, ?_⟩
  rw [insertToCache, if_neg (by omega), hold]
  refine bind_eq_ok.mpr ⟨old, rfl, bind_eq_ok.mpr ⟨slot, hcopy, ?_⟩⟩
  rw [hinsert]
  rfl

/-- In a full cache the name at the back gives the slot, and the map forgets that name. -/
theorem insertToCache_of_full (h : Sound files cacheSize c) (hpos : 1 ≤ cacheSize)
    (hsize : c.readCache.size = cacheSize) (hname : name ∉ c.readCache.keys.map Prod.fst)
    {l : List (Bytes × UInt32)} {old : Bytes} {index : UInt32}
    (hkeys : c.readCache.keys = l ++ [(old, index)]) {n : Nat} (hdata : n ≤ data.length)
    (hn : n ≤ maxContainerSize) :
    ∃ slot, slot.length = maxContainerSize ∧ data.take n <+: slot ∧
      c.insertToCache name data n = .ok { c with
        readCache := { c.readCache with keys := (name, index) :: l }
        containerPool := c.containerPool.set index.toNat slot } := by
  have hmem : (old, index) ∈ c.readCache.keys := by
    rw [hkeys]
    exact List.mem_append_right _ List.mem_cons_self
  obtain ⟨-, -, oldSlot, -, hold, -⟩ := h.held _ hmem
  have hlen := h.pool.sizes _ (List.mem_of_getElem? hold)
  obtain ⟨slot, hcopy, hslot, hbegins⟩ := copyTo_ok hdata (hn.trans hlen.ge)
  have hinsert := Lru.insert_of_full hname (by rw [h.maxSize]; exact hpos)
    (hsize.trans h.maxSize.symm) h.elasticity index
  refine ⟨slot, hslot.trans hlen, hbegins, ?_⟩
  rw [insertToCache, if_pos (by rw [hsize, h.cacheSize_eq]; exact Nat.lt_succ_self _),
    Lru.pruneValue_eq h.names hkeys]
  refine bind_eq_ok.mpr ⟨index, rfl, bind_eq_ok.mpr ⟨oldSlot, by rw [hold]; rfl,
    bind_eq_ok.mpr ⟨slot, hcopy, ?_⟩⟩⟩
  rw [hinsert, hkeys, List.dropLast_concat]
  rfl

/-- A new container while there is room.  The counter is below 2³², and above all slots in
use. -/
theorem Sound.insert_of_room (h : Sound files cacheSize c) (hle : cacheSize ≤ 2 ^ 32)
    (hroom : c.currentIndex < cacheSize) (hname : name ∉ c.readCache.keys.map Prod.fst)
    (hfile : files name = some f) (hf : f.length ≤ maxContainerSize) (hdata : f <+: data) :
    ∃ c', c.insertToCache name data f.length = .ok c' ∧ Sound files cacheSize c' := by
  have hindex : (UInt32.ofNat c.currentIndex).toNat = c.currentIndex :=
    UInt32.toNat_ofNat_of_lt' (Nat.lt_of_lt_of_le hroom hle)
  have hfresh : UInt32.ofNat c.currentIndex ∉ c.readCache.keys.map Prod.snd := by
    intro hmem
    obtain ⟨e, he, heq⟩ := List.mem_map.mp hmem
    have hlt := (h.held e he).1
    rw [heq, hindex] at hlt
    exact Nat.lt_irrefl _ hlt
  obtain ⟨slot, hslot, hbegins, hrun⟩ := insertToCache_of_room
    (h.maxSize.trans h.cacheSize_eq.symm) h.used (hroom.trans_eq h.cacheSize_eq.symm)
    (h.cacheSize_eq ▸ h.pool) hname hdata.length_le hf
  rw [← List.prefix_iff_eq_take.mp hdata] at hbegins
  have hused : c.currentIndex + 1 = c.readCache.keys.length + 1 := congrArg (· + 1) h.used
  have hput := h.put (List.Sublist.refl _) hname hfresh hfile hslot hbegins hused
    (Nat.le_succ _) hroom (by rw [hindex]; exact Nat.lt_succ_self _)
  rw [hindex] at hput
  exact ⟨_, hrun, hput⟩

/-- A new container in a full cache.  No other name has the slot that becomes free. -/
theorem Sound.insert_of_full (h : Sound files cacheSize c) (hpos : 1 ≤ cacheSize)
    (hfull : c.currentIndex = cacheSize) (hname : name ∉ c.readCache.keys.map Prod.fst)
    (hfile : files name = some f) (hf : f.length ≤ maxContainerSize) (hdata : f <+: data) :
    ∃ c', c.insertToCache name data f.length = .ok c' ∧ Sound files cacheSize c' := by
  have hsize : c.readCache.size = cacheSize := h.used.symm.trans hfull
  have hne : c.readCache.keys ≠ [] := List.ne_nil_of_length_pos (hpos.trans_eq hsize.symm)
  obtain ⟨l, ⟨old, index⟩, hkeys⟩ : ∃ l e, c.readCache.keys = l ++ [e] :=
    ⟨_, _, (List.dropLast_append_getLast hne).symm⟩
  have hslots := h.slots
  rw [hkeys, List.map_append, List.nodup_append] at hslots
  have hfresh : index ∉ l.map Prod.snd := fun hin =>
    hslots.2.2 index hin index List.mem_cons_self rfl
  have hused : c.currentIndex = l.length + 1 := by
    rw [h.used, Lru.size, hkeys, List.length_append, List.length_singleton]
  have hlt : index.toNat < c.currentIndex := by
    refine (h.held (old, index) ?_).1
    rw [hkeys]
    exact List.mem_append_right _ List.mem_cons_self
  obtain ⟨slot, hslot, hbegins, hrun⟩ :=
    insertToCache_of_full h hpos hsize hname hkeys hdata.length_le hf
  rw [← List.prefix_iff_eq_take.mp hdata] at hbegins
  exact ⟨_, hrun, h.put (hkeys ▸ List.sublist_append_left l _) hname hfresh hfile hslot hbegins
    hused le_rfl h.used_le hlt⟩

/-- **An insertion** of a container that is not in the cache. -/
theorem Sound.insertToCache (h : Sound files cacheSize c) (hpos : 1 ≤ cacheSize)
    (hle : cacheSize ≤ 2 ^ 32) (hname : name ∉ c.readCache.keys.map Prod.fst)
    (hfile : files name = some f) (hf : f.length ≤ maxContainerSize) (hdata : f <+: data) :
    ∃ c', c.insertToCache name data f.length = .ok c' ∧ Sound files cacheSize c' := by
  obtain hroom | hfull := Nat.lt_or_eq_of_le h.used_le
  · exact h.insert_of_room hle hroom hname hfile hf hdata
  · exact h.insert_of_full hpos hfull hname hfile hf hdata

/-- **A name that is in the cache** has its container in front of its slot. -/
theorem Sound.readFromCache (h : Sound files cacheSize c)
    (hexists : c.existsInCache name = true) :
    ∃ f slot c', c.readFromCache name = .ok (slot, c') ∧ Sound files cacheSize c' ∧
      files name = some f ∧ slot.length = maxContainerSize ∧ f <+: slot := by
  obtain ⟨index, keys', hget, hmem, hperm⟩ := Lru.get_of_contains hexists
  obtain ⟨-, f, slot, hfile, hslot, hf⟩ := h.held _ hmem
  refine ⟨f, slot, { c with readCache := { c.readCache with keys := keys' } }, ?_,
    h.perm hperm, hfile, h.pool.sizes _ (List.mem_of_getElem? hslot), hf⟩
  rw [ReadCache.readFromCache, hget]
  exact bind_eq_ok.mpr ⟨_, rfl, bind_eq_ok.mpr ⟨slot, by rw [hslot]; rfl, rfl⟩⟩

end ReadCache

/-! ## The containers of a request -/

namespace Fetch

variable {files : Bytes → Option Bytes} {cacheSize i : Nat} {s : Fetch} {name f : Bytes}

/-- A place of the array that begins with the container of a name. -/
def Delivered (files : Bytes → Option Bytes) (containerArray : List Bytes) (i : Nat)
    (name : Bytes) : Prop :=
  ∃ f container, files name = some f ∧ containerArray[i]? = some container ∧ f <+: container

/-- A cache that keeps what it should, and a request of the enclave's size. -/
structure Ready (files : Bytes → Option Bytes) (cacheSize : Nat) (s : Fetch) : Prop where
  ids : s.idBuffer.length = containerCappingValue * containerIDLength
  array : Allocated containerCappingValue s.containerArray
  cache : s.containerCache.Sound files cacheSize

/-- `s'` is `s` after the place `i` was filled with the container of a name. -/
structure Fills (files : Bytes → Option Bytes) (cacheSize : Nat) (i : Nat) (name : Bytes)
    (s s' : Fetch) : Prop where
  ready : Ready files cacheSize s'
  ids : s'.idBuffer = s.idBuffer
  others : ∀ j, j ≠ i → s'.containerArray[j]? = s.containerArray[j]?
  delivered : Delivered files s'.containerArray i name

/-- A new content of one place, and a cache that is as it should be. -/
theorem Ready.fills (h : Ready files cacheSize s) (hi : i < containerCappingValue)
    {container : Bytes} (hlen : container.length = maxContainerSize) (hfile : files name = some f)
    (hf : f <+: container) {cache : ReadCache} (hcache : cache.Sound files cacheSize) (n : Nat) :
    Fills files cacheSize i name s
      ⟨s.idBuffer, s.containerArray.set i container, s.idNum, cache, n⟩ where
  ready := ⟨h.ids, h.array.set i hlen, hcache⟩
  ids := rfl
  others := fun _ hj => List.getElem?_set_ne hj.symm
  delivered := by
    have hi' : i < s.containerArray.length := by
      rw [h.array.length]
      exact hi
    exact ⟨f, container, hfile, List.getElem?_set_self hi', hf⟩

/-- A container of the cache is its slot. -/
theorem Ready.fromCache (h : Ready files cacheSize s) (hi : i < containerCappingValue)
    (hexists : s.containerCache.existsInCache name = true) :
    ∃ s', s.fromCache i name = .ok s' ∧ Fills files cacheSize i name s s' := by
  obtain ⟨f, slot, cache, hrun, hcache, hfile, hslot, hf⟩ := h.cache.readFromCache hexists
  obtain ⟨old, hold, hlen⟩ := h.array.get hi
  obtain ⟨container, hcopy, hlen', hbegins⟩ := copyTo_ok hslot.ge hlen.ge
  rw [List.take_of_length_le hslot.le] at hbegins
  refine ⟨_, ?_, h.fills hi (hlen'.trans hlen) hfile (hf.trans hbegins) hcache
    s.readFromContainerFileNum⟩
  exact bind_eq_ok.mpr ⟨_, hrun, bind_eq_ok.mpr ⟨old, by rw [hold]; rfl,
    bind_eq_ok.mpr ⟨container, hcopy, rfl⟩⟩⟩

/-- A file is read whole, and what the insertion makes of it is the new cache. -/
theorem fromFile_eq {old : Bytes} (hold : s.containerArray[i]? = some old)
    (hlen : old.length = maxContainerSize) (hfile : files name = some f)
    (hf : f.length ≤ maxContainerSize) {cache : ReadCache}
    (hinsert : s.containerCache.insertToCache name (Buffer.overwrite old 0 f) f.length =
      .ok cache) :
    s.fromFile files i name = .ok ⟨s.idBuffer, s.containerArray.set i (Buffer.overwrite old 0 f),
      s.idNum, cache, s.readFromContainerFileNum + 1⟩ := by
  have hsize : (f.length : Int).bmod 4294967296 = f.length :=
    asInt_of_lt (Nat.lt_of_le_of_lt hf (by decide))
  have hopen : InStream.new.openFile (some f) = InStream.opened f := rfl
  have htell : ((InStream.opened f).seekg (InStream.opened f).endPos).tellg =
      ((f.length : Int), ⟨some f, f.length, false, false⟩) := rfl
  have hseek : (⟨some f, f.length, false, false⟩ : InStream UInt8).seekg 0 = InStream.opened f :=
    rfl
  have hread : (InStream.opened f).read f.length = (f, ⟨some f, f.length, false, false⟩) := by
    have hmid := InStream.read_mid [] f []
    rwa [List.append_nil, List.nil_append, List.length_nil, Nat.zero_add] at hmid
  have hwrite : Buffer.write old 0 f = some (Buffer.overwrite old 0 f) := by
    rw [Buffer.write, if_pos (by rw [Nat.zero_add, hlen]; exact hf)]
  rw [fromFile, hfile, hopen]
  refine (if_pos rfl).trans ?_
  dsimp only
  rw [htell]
  dsimp only
  rw [hsize, Int.toNat_natCast, hseek, hread]
  refine bind_eq_ok.mpr ⟨old, by rw [hold]; rfl, bind_eq_ok.mpr
    ⟨Buffer.overwrite old 0 f, by rw [hwrite]; rfl, ?_⟩⟩
  rw [if_pos rfl]
  exact bind_eq_ok.mpr ⟨cache, hinsert, rfl⟩

/-- A container of the disk. -/
theorem Ready.fromFile (h : Ready files cacheSize s) (hpos : 1 ≤ cacheSize)
    (hle : cacheSize ≤ 2 ^ 32) (hi : i < containerCappingValue)
    (hexists : s.containerCache.existsInCache name ≠ true) (hfile : files name = some f)
    (hf : f.length ≤ maxContainerSize) :
    ∃ s', s.fromFile files i name = .ok s' ∧ Fills files cacheSize i name s s' := by
  obtain ⟨old, hold, hlen⟩ := h.array.get hi
  have hbegins : f <+: Buffer.overwrite old 0 f := by
    rw [Buffer.overwrite, List.take_zero, List.nil_append]
    exact List.prefix_append _ _
  have hlen' : (Buffer.overwrite old 0 f).length = old.length :=
    Buffer.length_overwrite (by rw [Nat.zero_add, hlen]; exact hf)
  obtain ⟨cache, hinsert, hcache⟩ := h.cache.insertToCache hpos hle
    (fun hmem => hexists (Lru.contains_iff.mpr hmem)) hfile hf hbegins
  exact ⟨_, fromFile_eq hold hlen hfile hf hinsert,
    h.fills hi (hlen'.trans hlen) hfile hbegins hcache _⟩

/-- **One container**, from the cache or from the disk. -/
theorem Ready.getReqContainer (h : Ready files cacheSize s) (hpos : 1 ≤ cacheSize)
    (hle : cacheSize ≤ 2 ^ 32) (hi : i < containerCappingValue)
    (hname : (s.idBuffer.drop (i * containerIDLength)).take containerIDLength = name)
    (hfile : files name = some f) (hf : f.length ≤ maxContainerSize) :
    ∃ s', s.getReqContainer files i = .ok s' ∧ Fills files cacheSize i name s s' := by
  rw [Fetch.getReqContainer, hname]
  split
  · next hexists => exact h.fromCache hi hexists
  · next hexists => exact h.fromFile hpos hle hi hexists hfile hf

/-- After some of the names of a request. -/
structure Served (files : Bytes → Option Bytes) (cacheSize : Nat) (names : List ContainerID)
    (done : List Nat) (s : Fetch) : Prop where
  ready : Ready files cacheSize s
  ids : names.flatMap Subtype.val <+: s.idBuffer
  delivered : ∀ i ∈ done, ∀ name, names[i]? = some name →
    Delivered files s.containerArray i name.1

/-- The names of a call: no more than there are places, and all of containers that exist. -/
def Askable (files : Bytes → Option Bytes) (names : List ContainerID) : Prop :=
  names.length ≤ containerCappingValue ∧
    ∀ name ∈ names, ∃ f, files name.1 = some f ∧ f.length ≤ maxContainerSize

/-- The name that stands at a place of the request. -/
theorem Served.nameAt {names : List ContainerID} {done : List Nat}
    (h : Served files cacheSize names done s) {name : ContainerID} (hname : names[i]? = some name) :
    (s.idBuffer.drop (i * containerIDLength)).take containerIDLength = name.1 :=
  Blocks.block_of_prefix h.ids (fun x _ => x.2) hname

/-- **A step of the loop** serves its place and none of the others. -/
theorem Served.step {names : List ContainerID} {done : List Nat}
    (h : Served files cacheSize names done s) (hpos : 1 ≤ cacheSize) (hle : cacheSize ≤ 2 ^ 32)
    (hask : Askable files names) (hi : i < names.length) (hfresh : i ∉ done) :
    ∃ s', s.getReqContainer files i = .ok s' ∧
      Served files cacheSize names (done ++ [i]) s' := by
  have hname := List.getElem?_eq_getElem hi
  obtain ⟨f, hfile, hf⟩ := hask.2 _ (List.getElem_mem hi)
  obtain ⟨s', hrun, hs'⟩ := h.ready.getReqContainer hpos hle (Nat.lt_of_lt_of_le hi hask.1)
    (h.nameAt hname) hfile hf
  refine ⟨s', hrun, hs'.ready, by rw [hs'.ids]; exact h.ids, fun j hj name hname' => ?_⟩
  obtain hj | hj := List.mem_append.mp hj
  · obtain ⟨f, container, hfile, hcontainer, hf⟩ := h.delivered j hj name hname'
    have hne : j ≠ i := fun heq => hfresh (heq ▸ hj)
    exact ⟨f, container, hfile, (hs'.others j hne).trans hcontainer, hf⟩
  · obtain rfl := List.mem_singleton.mp hj
    obtain rfl : names[j] = name := Option.some.inj (hname.symm.trans hname')
    exact hs'.delivered

/-- **A call.** -/
theorem Ready.getReqContainers (h : Ready files cacheSize s) (hpos : 1 ≤ cacheSize)
    (hle : cacheSize ≤ 2 ^ 32) {names : List ContainerID} (hask : Askable files names) :
    ∃ s', (s.request names).getReqContainers files = .ok s' ∧
      Served files cacheSize names (List.range names.length) s' := by
  have hsizes : ∀ x ∈ names, (Subtype.val x).length = containerIDLength := fun x _ => x.2
  have hfit : 0 + (names.flatMap Subtype.val).length ≤ s.idBuffer.length := by
    rw [Nat.zero_add, Blocks.length_flatMap hsizes, h.ids]
    exact Nat.mul_le_mul_right _ hask.1
  have hstart : Served files cacheSize names [] (s.request names) :=
    ⟨⟨(Buffer.length_overwrite hfit).trans h.ids, h.array, h.cache⟩, List.prefix_append _ _, nofun⟩
  refine foldlM_ok (P := Served files cacheSize names) hstart fun done i rest s hcut hs => ?_
  have hcut : List.range names.length = done ++ i :: rest := hcut
  have hmem : i ∈ List.range names.length := by
    rw [hcut]
    exact List.mem_append_right _ List.mem_cons_self
  have hnodup := List.nodup_range (n := names.length)
  rw [hcut] at hnodup
  have hfresh : i ∉ done := fun hin =>
    (List.nodup_append.mp hnodup).2.2 i hin i List.mem_cons_self rfl
  exact hs.step hpos hle hask (List.mem_range.mp hmem) hfresh

/-- What every sequence of calls, on whatever the buffers hold at first, comes to: the cache
keeps what it should, and behind the last call each place of the array begins with the
container asked for. -/
def ContainerFetch (cacheSize : Nat) : Prop :=
  ∀ (files : Bytes → Option Bytes) (pool : List Bytes) (s : Fetch),
    s.idBuffer.length = containerCappingValue * containerIDLength →
    Allocated containerCappingValue s.containerArray → Allocated cacheSize pool →
    s.containerCache = ReadCache.new cacheSize pool →
    ∀ lists : List (List ContainerID), (∀ names ∈ lists, Askable files names) →
      ∃ s', s.calls files lists = .ok s' ∧ s'.containerCache.Sound files cacheSize ∧
        ∀ names, lists.getLast? = some names → ∀ i name, names[i]? = some name →
          Delivered files s'.containerArray i name.1

/-- **The containers of a restore** come through the cache as they lie on the disk, for every
size of the cache that its 32-bit slots can number. -/
theorem container_fetch {cacheSize : Nat} (hpos : 1 ≤ cacheSize) (hle : cacheSize ≤ 2 ^ 32) :
    ContainerFetch cacheSize := by
  intro files pool s hids harray hpool hcache lists hasks
  have hready : Ready files cacheSize s :=
    ⟨hids, harray, by rw [hcache]; exact ReadCache.sound_new files hpool⟩
  obtain ⟨s', hrun, hs', hlast⟩ := foldlM_ok (l := lists) (s := s)
    (f := fun s names => (s.request names).getReqContainers files)
    (P := fun done s => Ready files cacheSize s ∧ ∀ names, done.getLast? = some names →
      ∀ i name, names[i]? = some name → Delivered files s.containerArray i name.1)
    ⟨hready, nofun⟩ (by
      rintro done names rest s hcut ⟨hs, -⟩
      have hask : Askable files names := hasks names (by simp [hcut])
      obtain ⟨s', hrun, hs'⟩ := hs.getReqContainers hpos hle hask
      refine ⟨s', hrun, hs'.ready, fun names' hlast i name hname => ?_⟩
      rw [List.getLast?_concat] at hlast
      obtain rfl := Option.some.inj hlast
      obtain ⟨hi, -⟩ := List.getElem?_eq_some_iff.mp hname
      exact hs'.delivered i (List.mem_range.mpr hi) name hname)
  exact ⟨s', hrun, hs'.cache, hlast⟩

/-- Buffers of zeros. -/
def zeroBuffers (n : Nat) : List Bytes := List.replicate n (List.replicate maxContainerSize 0)

theorem allocated_zeroBuffers (n : Nat) : Allocated n (zeroBuffers n) where
  length := List.length_replicate
  sizes := fun _ hb => by rw [List.eq_of_mem_replicate hb, List.length_replicate]

/-- A restore that begins on buffers of zeros. -/
def zeroFetch (cacheSize : Nat) : Fetch where
  idBuffer := List.replicate (containerCappingValue * containerIDLength) 0
  containerArray := zeroBuffers containerCappingValue
  idNum := 0
  containerCache := ReadCache.new cacheSize (zeroBuffers cacheSize)
  readFromContainerFileNum := 0

/-- A name that spells a number. -/
def idOf (k : Nat) : ContainerID := smallParams.uuid k

theorem decode_idOf {k : Nat} (hk : k < 256 ^ 8) : LittleEndian.decode (idOf k).1 = k :=
  LittleEndian.decode_encode_of_lt hk

/-- A disk on which each name has a file, with itself for its contents. -/
def ownNames (name : Bytes) : Option Bytes := some name

theorem askable_ownNames {names : List ContainerID} (h : names.length ≤ containerCappingValue) :
    Askable ownNames names :=
  ⟨h, fun name _ => ⟨name.1, rfl, by rw [name.2]; decide⟩⟩

/-- A cache of two slots and three containers, one of which comes twice in one request. -/
theorem container_fetch_small :
    ∃ s', (zeroFetch 2).calls ownNames [[idOf 1, idOf 2], [idOf 1], [idOf 3, idOf 2, idOf 3]] =
        .ok s' ∧ s'.containerCache.Sound ownNames 2 ∧
      ∀ names, [[idOf 1, idOf 2], [idOf 1], [idOf 3, idOf 2, idOf 3]].getLast? = some names →
        ∀ i name, names[i]? = some name → Delivered ownNames s'.containerArray i name.1 :=
  container_fetch (by decide) (by decide) ownNames (zeroBuffers 2) (zeroFetch 2)
    List.length_replicate (allocated_zeroBuffers _) (allocated_zeroBuffers _) rfl _ (by
      intro names hnames
      refine askable_ownNames ?_
      simp only [List.mem_cons, List.not_mem_nil, or_false] at hnames
      obtain rfl | rfl | rfl := hnames <;> decide)

/-! ## One slot too many -/

/-- After the first `n` names, while nothing was forgotten. -/
structure Filling (cacheSize n : Nat) (s : Fetch) : Prop where
  ids : s.idBuffer.length = containerCappingValue * containerIDLength
  array : Allocated containerCappingValue s.containerArray
  maxSize : s.containerCache.readCache.maxSize = cacheSize
  cacheSize_eq : s.containerCache.cacheSize = cacheSize
  pool : Allocated cacheSize s.containerCache.containerPool
  index : s.containerCache.currentIndex = n
  keys : s.containerCache.readCache.keys =
    (List.range n).reverse.map fun k => ((idOf k).1, UInt32.ofNat k)

theorem idOf_inj {j k : Nat} (hj : j < 256 ^ 8) (hk : k < 256 ^ 8) (h : (idOf j).1 = (idOf k).1) :
    j = k := by
  rw [← decode_idOf hj, h, decode_idOf hk]

/-- The next name takes the next slot, under the slot's number modulo 2³². -/
theorem Filling.step {n : Nat} (h : Filling cacheSize n s) (hn : n < cacheSize)
    (hbound : n < 256 ^ 8) :
    ∃ s', (s.request [idOf n]).getReqContainers ownNames = .ok s' ∧
      Filling cacheSize (n + 1) s' := by
  have hids : (s.request [idOf n]).idBuffer = (idOf n).1 ++ s.idBuffer.drop containerIDLength := by
    simp only [request, Buffer.overwrite, List.flatMap_cons, List.flatMap_nil, List.append_nil,
      List.take_zero, List.nil_append, Nat.zero_add, (idOf n).2]
  have hname : ((s.request [idOf n]).idBuffer.drop (0 * containerIDLength)).take
      containerIDLength = (idOf n).1 := by
    rw [hids, Nat.zero_mul, List.drop_zero, List.take_left' (idOf n).2]
  have hnew : (idOf n).1 ∉ s.containerCache.readCache.keys.map Prod.fst := by
    rw [h.keys, List.map_map]
    intro hmem
    obtain ⟨k, hk, heq⟩ := List.mem_map.mp hmem
    have hlt : k < n := List.mem_range.mp (List.mem_reverse.mp hk)
    exact Nat.ne_of_lt hlt (idOf_inj (hlt.trans hbound) hbound heq)
  have hsize : (idOf n).1.length ≤ maxContainerSize := by
    rw [(idOf n).2]
    decide
  obtain ⟨old, hold, hlen⟩ := h.array.get (i := 0) (by decide)
  have hlen' : (Buffer.overwrite old 0 (idOf n).1).length = old.length :=
    Buffer.length_overwrite (by rw [Nat.zero_add, hlen]; exact hsize)
  have hused : s.containerCache.currentIndex = s.containerCache.readCache.size := by
    rw [h.index, Lru.size, h.keys, List.length_map, List.length_reverse, List.length_range]
  have hdata : (idOf n).1.length ≤ (Buffer.overwrite old 0 (idOf n).1).length :=
    hsize.trans (hlen'.trans hlen).ge
  obtain ⟨slot, hslot, -, hinsert⟩ := ReadCache.insertToCache_of_room
    (h.maxSize.trans h.cacheSize_eq.symm) hused (by rw [h.index, h.cacheSize_eq]; exact hn)
    (h.cacheSize_eq.symm ▸ h.pool) hnew hdata hsize
  have hfile := fromFile_eq (s := s.request [idOf n]) hold hlen
    (rfl : ownNames (idOf n).1 = some (idOf n).1) hsize hinsert
  have hmiss : ¬ (s.request [idOf n]).containerCache.existsInCache (idOf n).1 = true :=
    fun hc => hnew (Lru.contains_iff.mp hc)
  have hbody : (s.request [idOf n]).getReqContainer ownNames 0 =
      (s.request [idOf n]).fromFile ownNames 0 (idOf n).1 := by
    rw [Fetch.getReqContainer, hname, if_neg hmiss]
  refine ⟨_, (foldlM_cons_ok (hbody.trans hfile)).trans rfl, ?_, h.array.set _ (hlen'.trans hlen),
    h.maxSize, h.cacheSize_eq, h.pool.set _ hslot, congrArg (· + 1) h.index, ?_⟩
  · rw [hids, List.length_append, (idOf n).2, List.length_drop, h.ids]
    decide
  · rw [List.range_succ, List.reverse_append, List.map_append, ← h.keys, h.index]
    rfl

/-- The calls that fill a cache. -/
def fillCalls (n : Nat) : List (List ContainerID) := (List.range n).map fun k => [idOf k]

/-- As long as there are slots, one name after the other takes one. -/
theorem filling_run {cacheSize n : Nat} (hn : n ≤ cacheSize) (hbound : n ≤ 256 ^ 8) :
    ∃ s', (zeroFetch cacheSize).calls ownNames (fillCalls n) = .ok s' ∧
      Filling cacheSize n s' := by
  induction n with
  | zero =>
      exact ⟨zeroFetch cacheSize, rfl, List.length_replicate, allocated_zeroBuffers _, rfl, rfl,
        allocated_zeroBuffers _, rfl, rfl⟩
  | succ n ih =>
      obtain ⟨s, hrun, hs⟩ := ih (Nat.le_of_succ_le hn) (Nat.le_of_succ_le hbound)
      obtain ⟨s', hstep, hs'⟩ := hs.step hn hbound
      have hlast : s.calls ownNames [[idOf n]] = .ok s' := Loops.foldlM_singleton_ok.mpr hstep
      refine ⟨s', ?_, hs'⟩
      rw [calls, fillCalls, List.range_succ, List.map_append, List.foldlM_append]
      exact bind_eq_ok.mpr ⟨s, hrun, hlast⟩

/-- With 2³² + 1 slots and as many containers, the first and the last share a slot. -/
theorem container_fetch_index_overflow :
    1 ≤ 2 ^ 32 + 1 ∧ ¬ ContainerFetch (2 ^ 32 + 1) := by
  refine ⟨Nat.le_add_left 1 _, fun hfetch => ?_⟩
  have hne : (2 ^ 32 : Nat) ≠ 0 := by decide
  have hword : UInt32.ofNat (2 ^ 32) = UInt32.ofNat 0 := rfl
  have hbound : 2 ^ 32 + 1 ≤ 256 ^ 8 := by decide
  generalize (2 ^ 32 : Nat) = last at *
  obtain ⟨s, hrun, hs⟩ := filling_run (le_refl (last + 1)) hbound
  obtain ⟨s', hrun', hsound, -⟩ := hfetch ownNames (zeroBuffers (last + 1)) (zeroFetch (last + 1))
    List.length_replicate (allocated_zeroBuffers _) (allocated_zeroBuffers _) rfl
    (fillCalls (last + 1)) (by
      intro names hnames
      obtain ⟨k, -, rfl⟩ := List.mem_map.mp hnames
      exact askable_ownNames (by rw [List.length_singleton]; decide))
  obtain rfl : s = s' := Except.ok.inj (hrun.symm.trans hrun')
  have hslots := hsound.slots
  rw [hs.keys, List.map_map] at hslots
  have hmem : ∀ k ≤ last, k ∈ (List.range (last + 1)).reverse := fun k hk =>
    List.mem_reverse.mpr (List.mem_range.mpr (Nat.lt_succ_of_le hk))
  exact hne (List.inj_on_of_nodup_map hslots (hmem last le_rfl) (hmem 0 (Nat.zero_le _)) hword)

end Fetch

end Debe

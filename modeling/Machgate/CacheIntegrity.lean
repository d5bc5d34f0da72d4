import Machgate.CachePublish
import Machgate.Interleaving

namespace Machgate.CacheIntegrity

open RecordBuffer FileStore StartupCache CachePublish Interleaving List Option BitVec Function Nat

/-- The fields of a `struct stat` that the cache looks at. -/
@[ext]
structure Stat where
  dev : BitVec 64
  ino : BitVec 64
  size : BitVec 64
  mtimeSec : BitVec 64
  mtimeNsec : BitVec 64
  deriving DecidableEq

def fillCacheKey (st : Stat) : CacheKey :=
  { dev := st.dev, ino := st.ino, size := st.size, mtimeSec := st.mtimeSec
    mtimeNsec := st.mtimeNsec, hasUnwind := 0 }

theorem keyMatches_fillCacheKey (st st' : Stat) :
    keyMatches (fillCacheKey st) (fillCacheKey st') ↔ st = st' := by
  rw [Stat.ext_iff]
  exact Iff.rfl

/-- A call of `startup_cache_publish` that has the directory to itself and returns 0: its last
system call is the `rename`. -/
def publish (c : PublishCall) (store : Store Name) (moves : List Move) : Option (Store Name) :=
  (run (fun s move => advance c s.1 s.2 move) (store, .start) moves).bind fun s =>
    match advance c s.1 s.2 (.rename true) with
    | some (store', .done) => some store'
    | _ => none

def cacheFile (store : Store Name) : List Octet := ((store.names .final).map store.content).getD []

structure Yields (file : List Octet) (opened : OpenedCache) (c : PublishCall) : Prop where
  arrays : Holds file opened c
  ehFrameSize : opened.header.ehFrameSize.toNat = c.ehFrame.length
  hdrPairsSize : opened.header.hdrPairsSize.toNat = c.hdrPairs.length
  patchCount : opened.header.patchCount.toNat = c.patchCount
  ciePersonalityOffset : opened.header.ciePersonalityOffset = c.ciePersonalityOffset
  fdeCount : opened.header.fdeCount = c.fdeCount

section

variable {c : PublishCall} {store store' : Store Name} {moves : List Move}

theorem cacheFile_publish (h : Sound store) (hpublish : publish c store moves = some store') :
    cacheFile store' = c.published := by
  rcases bind_eq_some_iff.mp hpublish with ⟨s, hrun, hlast⟩
  have hstep : ∀ (s : Store Name × Phase) move s', Written c s.1 s.2 →
      advance c s.1 s.2 move = some s' → Written c s'.1 s'.2 :=
    fun _ _ _ hs hmove => (hs.advance hmove).1
  have hstart : Written c (store, Phase.start).1 (store, Phase.start).2 := h
  have hwritten := invariant_run hstep hstart hrun
  split at hlast
  · next renamed hrename =>
    obtain rfl := some.inj hlast
    rcases hwritten.rename_done hrename with ⟨ino, hfinal, hcontent⟩
    simp [cacheFile, hfinal, hcontent]
  · cases hlast

theorem ofBytes_published : CacheHeader.ofBytes c.published = c.header (fnv1a64 c.payload) :=
  CacheHeader.ofBytes_toBytes _ _

theorem length_published :
    c.published.length = sizeofHeader + c.ehFrame.length + c.hdrPairs.length + c.patches.length := by
  rw [PublishCall.published, length_append, length_toBytes, PublishCall.payload]
  simp only [length_append]
  omega

theorem totalNeeded_header (payloadChecksum : BitVec 64) :
    (c.header payloadChecksum).totalNeeded = BitVec.ofNat 64 c.published.length := by
  rw [length_published, c.patches_length]
  simp only [CacheHeader.totalNeeded, PublishCall.header, ofNat_add, ofNat_mul]
  rfl

theorem checksum_header (payloadChecksum : BitVec 64) :
    (c.header payloadChecksum).checksum = (c.header payloadChecksum).headerChecksum := by
  simp only [PublishCall.header, CacheHeader.headerChecksum]

/-- The finished file is opened for the key it was made for and for no other. -/
theorem isSome_open_published (key : CacheKey) :
    (startupCacheOpen key c.published).isSome ↔ keyMatches c.key key := by
  rw [isSome_iff_exists]
  constructor
  · rintro ⟨opened, hopen⟩
    have hkey := (startupCacheOpen_eq_some.mp hopen).2.2.2.2.2.1
    rw [ofBytes_published] at hkey
    exact hkey
  · intro hkey
    refine ⟨_, startupCacheOpen_eq_some.mpr ⟨?_, ?_, ?_, ?_, ?_, ?_, ?_, ?_, rfl⟩⟩
    · rw [length_published]
      omega
    · rw [ofBytes_published]
      rfl
    · rw [ofBytes_published]
      rfl
    · rw [ofBytes_published]
      rfl
    · rw [ofBytes_published]
      exact checksum_header _
    · rw [ofBytes_published]
      exact hkey
    · rw [ofBytes_published, totalNeeded_header]
    · rw [ofBytes_published, PublishCall.published, drop_left' (length_toBytes _)]
      rfl

theorem yields_published {key : CacheKey} {opened : OpenedCache}
    (h : startupCacheOpen key c.published = some opened) : Yields c.published opened c := by
  have hheader : opened.header = c.header (fnv1a64 c.payload) := by
    obtain ⟨-, -, -, -, -, -, -, -, rfl⟩ := startupCacheOpen_eq_some.mp h
    exact ofBytes_published
  have hsize := c.size_lt
  have hpatches := c.patches_length
  rw [sizeofPatch] at hpatches
  refine ⟨holds_published c h, ?_, ?_, ?_, ?_, ?_⟩
  · rw [hheader]
    exact mod_eq_of_lt (by omega)
  · rw [hheader]
    exact mod_eq_of_lt (by omega)
  · rw [hheader]
    exact mod_eq_of_lt (by omega)
  · rw [hheader]
    rfl
  · rw [hheader]
    rfl

end

/-- What was published comes back for the same `stat`, and for a different one nothing does. -/
theorem publish_then_open {c : PublishCall} {st : Stat} (hkey : c.key = fillCacheKey st)
    {store store' : Store Name} (hsound : Sound store) {moves : List Move}
    (hpublish : publish c store moves = some store') :
    (∃ opened, startupCacheOpen (fillCacheKey st) (cacheFile store') = some opened ∧
        Yields (cacheFile store') opened c) ∧
      ∀ st', st' ≠ st → startupCacheOpen (fillCacheKey st') (cacheFile store') = none := by
  rw [cacheFile_publish hsound hpublish]
  constructor
  · have hsome : (startupCacheOpen (fillCacheKey st) c.published).isSome := by
      rw [isSome_open_published, hkey, keyMatches_fillCacheKey]
    rcases isSome_iff_exists.mp hsome with ⟨opened, hopen⟩
    exact ⟨opened, hopen, yields_published hopen⟩
  · intro st' hne
    rw [← not_isSome_iff_eq_none, isSome_open_published, hkey, keyMatches_fillCacheKey]
    exact hne.symm

def smallStat : Stat := ⟨1, 2, 3, 4, 5⟩

/-- The arrays are written in two pieces, over an older file under the final name. -/
def smallMoves : List Move :=
  [.openTemp true, .write 120, .write 3, .write 1, .write 16, .closeTemp true, .openChecksum true,
    .read 20, .endRead, .openPatch true, .pwrite 120 true]

def olderStore : Store Name := ⟨[[1, 2, 3]], fun name => if name = .final then some 0 else none⟩

theorem publish_small_then_open :
    ∃ store', publish (uniformCall 7) olderStore smallMoves = some store' ∧
      (∃ opened, startupCacheOpen (fillCacheKey smallStat) (cacheFile store') = some opened ∧
        Yields (cacheFile store') opened (uniformCall 7)) ∧
      ∀ st', st' ≠ smallStat → startupCacheOpen (fillCacheKey st') (cacheFile store') = none := by
  have hsome : (publish (uniformCall 7) olderStore smallMoves).isSome := by decide +kernel
  rcases isSome_iff_exists.mp hsome with ⟨store', hpublish⟩
  refine ⟨store', hpublish, publish_then_open (by decide) ?_ hpublish⟩
  rintro (_ | _) ino hino
  · cases hino
  · obtain rfl := some.inj hino
    decide

section

variable {S B : Type} {f : S → B → S}

theorem foldl_injective (hstate : ∀ b, Injective fun s => f s b) (bytes : List B) :
    Injective fun s => bytes.foldl f s := by
  induction bytes with
  | nil => exact fun _ _ h => h
  | cons b bytes ih => exact fun _ _ h => hstate b (ih h)

/-- A fold by steps that are injective in the state and in the byte sees the change of a byte. -/
theorem eq_of_foldl_set (hstate : ∀ b, Injective fun s => f s b)
    (hbyte : ∀ s, Injective (f s)) {bytes : List B} {i : Nat} {b : B} (s : S)
    (h : (bytes.set i b).foldl f s = bytes.foldl f s) : bytes.set i b = bytes := by
  induction bytes generalizing i s with
  | nil => rfl
  | cons a bytes ih =>
    cases i with
    | zero =>
      have hstep := foldl_injective hstate bytes h
      rw [set_cons_zero, hbyte s hstep]
    | succ i => rw [set_cons_succ, ih (f s a) h]

end

/-- The prime is odd, and this is its inverse. -/
theorem prime_mul_inverse : (1099511628211#64) * 14886173955864302971#64 = 1#64 := by
  decide

theorem mul_prime_injective : Injective fun x : BitVec 64 => x * 1099511628211#64 := by
  intro x y h
  have hinverse := congrArg (· * 14886173955864302971#64) h
  simpa only [BitVec.mul_assoc, prime_mul_inverse, BitVec.mul_one] using hinverse

theorem eq_of_fnv1a64_set {bytes : List Octet} {i : Nat} {b : Octet}
    (h : fnv1a64 (bytes.set i b) = fnv1a64 bytes) : bytes.set i b = bytes := by
  refine eq_of_foldl_set ?_ ?_ _ h
  · intro b x y hxy
    exact (BitVec.xor_left_inj _).mp (mul_prime_injective hxy)
  · intro x a b hab
    have hwide := (BitVec.xor_right_inj _).mp (mul_prime_injective hab)
    have hnat := congrArg BitVec.toNat hwide
    simp only [toNat_setWidth] at hnat
    exact eq_of_toNat_eq (by omega)

section

theorem leBytes_ofLeBytes (bytes : List Octet) : leBytes bytes.length (ofLeBytes bytes) = bytes := by
  induction bytes with
  | nil => rfl
  | cons b bytes ih =>
    have hlow : BitVec.ofNat 8 (b.toNat + 256 * ofLeBytes bytes) = b := by
      apply eq_of_toNat_eq
      rw [toNat_ofNat]
      omega
    have hhigh : (b.toNat + 256 * ofLeBytes bytes) / 256 = ofLeBytes bytes := by
      omega
    rw [ofLeBytes, length_cons, leBytes, hlow, hhigh, ih]

variable {bytes : List Octet}

theorem leBytes_field {offset n : Nat} (h : offset + n ≤ bytes.length) :
    leBytes n (field bytes offset n) = (bytes.drop offset).take n := by
  have hlength : ((bytes.drop offset).take n).length = n := by
    simp only [length_take, length_drop]
    omega
  have hbytes := leBytes_ofLeBytes ((bytes.drop offset).take n)
  rwa [hlength] at hbytes

theorem eq_of_leBytes {v w : BitVec 64} (h : leBytes 8 v.toNat = leBytes 8 w.toNat) : v = w := by
  have hnat := congrArg ofLeBytes h
  rw [ofLeBytes_leBytes, ofLeBytes_leBytes] at hnat
  exact eq_of_toNat_eq (by omega)

def readFields (bytes : List Octet) : Nat → List Nat → List (Nat × Nat)
  | _, [] => []
  | offset, n :: ns => (n, field bytes offset n) :: readFields bytes (offset + n) ns

theorem fields_readFields {offset : Nat} {ns : List Nat} (h : offset + ns.sum ≤ bytes.length) :
    fields (readFields bytes offset ns) = (bytes.drop offset).take ns.sum := by
  induction ns generalizing offset with
  | nil => rfl
  | cons n ns ih =>
    rw [sum_cons] at h
    have hrest : fields (readFields bytes (offset + n) ns) =
        (bytes.drop (offset + n)).take ns.sum := ih (by omega)
    rw [fields] at hrest
    rw [readFields, fields, flatMap_cons, hrest, leBytes_field (by omega), sum_cons,
      take_add, drop_drop]

theorem toBytes_ofBytes {file : List Octet} (h : sizeofHeader ≤ file.length) :
    (CacheHeader.ofBytes file).toBytes = file.take sizeofHeader := by
  rw [sizeofHeader] at h
  have hwide : ∀ offset, offset + 8 ≤ 120 →
      (BitVec.ofNat 64 (field file offset 8)).toNat = field file offset 8 := fun offset hoffset =>
    mod_eq_of_lt (field_lt ..)
  have hnarrow : ∀ offset, offset + 4 ≤ 120 →
      (BitVec.ofNat 32 (field file offset 4)).toNat = field file offset 4 := fun offset hoffset =>
    mod_eq_of_lt (field_lt ..)
  have hlayout : (CacheHeader.ofBytes file).layout = readFields file 0 headerWidths := by
    simp (disch := decide) only [CacheHeader.layout, CacheHeader.ofBytes, hwide, hnarrow]
    rfl
  have hsum : headerWidths.sum = sizeofHeader := by decide
  rw [CacheHeader.toBytes, hlayout, fields_readFields (by rw [hsum, sizeofHeader]; omega), hsum]
  rfl

def front (header : CacheHeader) : List Octet := fields (header.layout.take 15)

variable (header : CacheHeader)

theorem length_front : (front header).length = 104 := by
  rfl

theorem toBytes_eq_front :
    header.toBytes =
      front header ++
        (leBytes 8 header.checksum.toNat ++ leBytes 8 header.payloadChecksum.toNat) := by
  have hlayout : header.layout = header.layout.take 15 ++
      [(8, header.checksum.toNat), (8, header.payloadChecksum.toNat)] := rfl
  rw [CacheHeader.toBytes, hlayout, fields, flatMap_append]
  simp [front, fields]

/-- `header_checksum` of a header with these bytes in front of its checksums. -/
def frontChecksum (bytes : List Octet) : BitVec 64 := fnv1a64 (bytes ++ List.replicate 16 0)

theorem headerChecksum_eq : header.headerChecksum = frontChecksum (front header) := by
  have hzeros : leBytes 8 (0 : BitVec 64).toNat ++ leBytes 8 (0 : BitVec 64).toNat =
      List.replicate 16 0 := by decide
  rw [CacheHeader.headerChecksum, toBytes_eq_front]
  dsimp only
  rw [hzeros, frontChecksum]
  rfl

theorem eq_of_frontChecksum_set {i : Nat} {b : Octet} (hi : i < bytes.length)
    (h : frontChecksum (bytes.set i b) = frontChecksum bytes) : bytes.set i b = bytes := by
  rw [frontChecksum, frontChecksum, ← set_append_left _ _ hi] at h
  have hbytes := eq_of_fnv1a64_set h
  rw [set_append_left _ _ hi] at hbytes
  exact append_cancel_right hbytes

def sealed (bytes payload : List Octet) : List Octet :=
  bytes ++ (leBytes 8 (frontChecksum bytes).toNat ++
    (leBytes 8 (fnv1a64 payload).toNat ++ payload))

theorem published_eq_sealed (c : PublishCall) :
    c.published = sealed (front (c.header (fnv1a64 c.payload))) c.payload := by
  rw [PublishCall.published, toBytes_eq_front, checksum_header, headerChecksum_eq, sealed]
  simp only [List.append_assoc]
  rfl

theorem eq_sealed_of_open {key : CacheKey} {file : List Octet}
    (h : (startupCacheOpen key file).isSome) :
    file = sealed (front (CacheHeader.ofBytes file)) (file.drop sizeofHeader) := by
  rcases isSome_iff_exists.mp h with ⟨opened, hopen⟩
  rcases startupCacheOpen_eq_some.mp hopen with ⟨hlength, -, -, -, hchecksum, -, -, hpayload, -⟩
  have hbytes := toBytes_ofBytes hlength
  rw [toBytes_eq_front, hchecksum, headerChecksum_eq, ← hpayload] at hbytes
  calc file = file.take sizeofHeader ++ file.drop sizeofHeader := (take_append_drop _ _).symm
    _ = _ := by
      rw [← hbytes, sealed]
      simp only [List.append_assoc]

/-- No two sealed files differ in exactly one byte: the byte lies in front of the checksums, in one
of them or in the payload, and each time a checksum tells. -/
theorem set_sealed {bytes' payload payload' : List Octet} {i : Nat} {b : Octet}
    (hbytes : bytes.length = 104) (hbytes' : bytes'.length = 104)
    (h : (sealed bytes payload).set i b = sealed bytes' payload') :
    (sealed bytes payload).set i b = sealed bytes payload := by
  rw [sealed, sealed] at h
  rw [sealed]
  rcases Nat.lt_or_ge i bytes.length with hi | hi
  · rw [set_append_left _ _ hi] at h ⊢
    rcases append_inj h (by simp [hbytes, hbytes']) with ⟨rfl, hrest⟩
    have hchecksum := (append_inj hrest (by simp)).1
    rw [eq_of_frontChecksum_set hi (eq_of_leBytes hchecksum).symm]
  rw [set_append_right _ _ hi] at h ⊢
  rcases append_inj h (hbytes.trans hbytes'.symm) with ⟨rfl, hrest⟩
  generalize i - bytes.length = i at hrest ⊢
  rcases Nat.lt_or_ge i 8 with hi | hi
  · rw [set_append_left _ _ (by simpa using hi)] at hrest ⊢
    rw [(append_inj hrest (by simp)).1]
  rw [set_append_right _ _ (by simpa using hi)] at hrest ⊢
  rcases append_inj hrest (by simp) with ⟨-, hrest⟩
  generalize i - _ = i at hrest ⊢
  rcases Nat.lt_or_ge i 8 with hi | hi
  · rw [set_append_left _ _ (by simpa using hi)] at hrest ⊢
    rcases append_inj hrest (by simp) with ⟨hchecksum, rfl⟩
    rw [hchecksum]
  · rw [set_append_right _ _ (by simpa using hi)] at hrest ⊢
    rcases append_inj hrest (by simp) with ⟨hchecksum, rfl⟩
    rw [eq_of_fnv1a64_set (eq_of_leBytes hchecksum).symm]

end

/-- A finished file in which one byte is another one is rejected, for every `stat`. -/
theorem open_corrupted (c : PublishCall) (key : CacheKey) {i : Nat} {b : Octet}
    (hchanged : c.published.set i b ≠ c.published) :
    startupCacheOpen key (c.published.set i b) = none := by
  rw [← not_isSome_iff_eq_none]
  intro hsome
  have hsealed := eq_sealed_of_open hsome
  apply hchanged
  rw [published_eq_sealed] at hsealed ⊢
  exact set_sealed (length_front _) (length_front _) hsealed

/-- The last byte of the header, which belongs to the checksum of the payload. -/
theorem open_corrupted_small :
    (uniformCall 7).published.set 119 0 ≠ (uniformCall 7).published ∧
      startupCacheOpen (fillCacheKey smallStat) ((uniformCall 7).published.set 119 0) = none := by
  have hchanged : (uniformCall 7).published.set 119 0 ≠ (uniformCall 7).published := by
    decide +kernel
  exact ⟨hchanged, open_corrupted (uniformCall 7) (fillCacheKey smallStat) hchanged⟩

end Machgate.CacheIntegrity

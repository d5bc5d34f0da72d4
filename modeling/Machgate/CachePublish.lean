import Machgate.FileStore
import Machgate.StartupCache

namespace Machgate.CachePublish

open RecordBuffer FileStore StartupCache List Option Nat Prod

/-- The arguments of a `startup_cache_publish` call; `key` is what `fill_cache_key` makes of the
binary's `stat`. -/
structure PublishCall where
  ehFrame : List Octet
  hdrPairs : List Octet
  patches : List Octet
  patchCount : Nat
  ciePersonalityOffset : BitVec 64
  fdeCount : BitVec 32
  key : CacheKey
  patches_length : patches.length = patchCount * sizeofPatch
  size_lt : sizeofHeader + ehFrame.length + hdrPairs.length + patches.length < 2 ^ 63

namespace PublishCall

variable (c : PublishCall)

def payload : List Octet := c.ehFrame ++ c.hdrPairs ++ c.patches

def header (payloadChecksum : BitVec 64) : CacheHeader :=
  let header : CacheHeader :=
    { magic := machgateStartupCacheMagic, version := machgateStartupCacheVersion
      headerSize := BitVec.ofNat 32 sizeofHeader, key := c.key
      ehFrameSize := BitVec.ofNat 64 c.ehFrame.length
      hdrPairsSize := BitVec.ofNat 64 c.hdrPairs.length
      patchCount := BitVec.ofNat 64 c.patchCount
      ciePersonalityOffset := c.ciePersonalityOffset, fdeCount := c.fdeCount, reserved := 0
      checksum := 0, payloadChecksum := payloadChecksum }
  { header with checksum := header.headerChecksum }

/-- What is written behind each other; an empty array is not written at all. -/
def segments : List (List Octet) :=
  [(c.header 0).toBytes, c.ehFrame, c.hdrPairs, c.patches].filter (· ≠ [])

end PublishCall

inductive Name
  | temp
  | final
  deriving DecidableEq

/-- Where a call is: `writing` has the open file, its offset and what is left to write; `reading`
has the file opened for the checksum, if that worked, and the bytes read so far. -/
inductive Phase
  | start
  | writing (ino offset : Nat) (left : List (List Octet)) (failed : Bool)
  | closed
  | reading (ino : Option Nat) (got : List Octet)
  | patching (got : List Octet)
  | patchOpen (ino : Nat) (got : List Octet)
  | patched
  | failing
  | done

/-- The system calls, with the outcomes the kernel is free to choose. -/
inductive Move
  | openTemp (ok : Bool)
  | write (n : Nat)
  | writeError
  | closeTemp (ok : Bool)
  | outOfMemory
  | openChecksum (ok : Bool)
  | read (n : Nat)
  | endRead
  | openPatch (ok : Bool)
  | pwrite (n : Nat) (ok : Bool)
  | rename (ok : Bool)
  | unlink

def advance (c : PublishCall) (store : Store Name) (phase : Phase) (move : Move) :
    Option (Store Name × Phase) :=
  match phase, move with
  | .start, .openTemp true =>
    let opened := store.openTruncate .temp
    some (opened.1, .writing opened.2 0 c.segments false)
  | .start, .openTemp false => some (store, .done)
  | .writing ino offset (seg :: left) failed, .write n =>
    if 0 < n ∧ n ≤ seg.length then
      some (store.write ino offset (seg.take n),
        .writing ino (offset + n) (if n = seg.length then left else seg.drop n :: left) failed)
    else none
  -- `write_all` gives its array up, and the next one is written all the same
  | .writing ino offset (_ :: left) _, .writeError => some (store, .writing ino offset left true)
  | .writing _ _ [] failed, .closeTemp ok =>
    some (store, if failed = false ∧ ok = true then .closed else .failing)
  | .closed, .outOfMemory => some (store, .failing)
  | .closed, .openChecksum ok => some (store, .reading (if ok then store.names .temp else none) [])
  | .reading (some ino) got, .read n =>
    let rest := ((store.content ino).drop (sizeofHeader + got.length)).take
      (c.payload.length - got.length)
    if 0 < n ∧ n ≤ rest.length then some (store, .reading (some ino) (got ++ rest.take n)) else none
  | .reading _ got, .endRead =>
    some (store, if got.length = c.payload.length then .patching got else .failing)
  | .patching got, .openPatch ok =>
    match if ok then store.names .temp else none with
    | some ino => some (store, .patchOpen ino got)
    | none => some (store, .failing)
  | .patchOpen ino got, .pwrite n ok =>
    if n ≤ sizeofHeader then
      some (store.write ino 0 ((c.header (fnv1a64 got)).toBytes.take n),
        if n = sizeofHeader ∧ ok = true then .patched else .failing)
    else none
  | .patched, .rename ok =>
    match if ok then store.rename .temp .final else none with
    | some store' => some (store', .done)
    | none => some (store, .failing)
  | .failing, .unlink => some (store.unlink .temp, .done)
  | _, _ => none

structure System where
  store : Store Name
  phases : List Phase

def initial (calls : List PublishCall) : System := ⟨.empty, calls.map fun _ => .start⟩

def step (calls : List PublishCall) (s : System) (i : Nat) (move : Move) : Option System :=
  calls[i]?.bind fun c =>
    s.phases[i]?.bind fun phase =>
      (advance c s.store phase move).map fun r => ⟨r.1, s.phases.set i r.2⟩

/-- An interleaving: which call makes its next system call, and how that ends. -/
def run (calls : List PublishCall) : List (Nat × Move) → System → Option System
  | [], s => some s
  | (i, move) :: schedule, s => (step calls s i move).bind (run calls schedule)

def part (file : List Octet) (s : Slice) : List Octet := (file.drop s.start).take s.size

def Holds (file : List Octet) (opened : OpenedCache) (c : PublishCall) : Prop :=
  part file opened.ehFrameSlice = c.ehFrame ∧ part file opened.hdrPairsSlice = c.hdrPairs ∧
    part file opened.patchesSlice = c.patches

/-- A file that is accepted under the final name holds the arrays of one of the calls. -/
def Whole (calls : List PublishCall) (s : System) : Prop :=
  ∀ ino key opened, s.store.names .final = some ino →
    startupCacheOpen key (s.store.content ino) = some opened →
      ∃ c ∈ calls, Holds (s.store.content ino) opened c

/-- Whether a call has the temporary file after the move: from its open to its `rename` or
`unlink`. -/
def Move.holds (held : Bool) : Move → Bool
  | .openTemp true => true
  | .rename true => false
  | .unlink => false
  | _ => held

/-- No call opens the temporary file between another's open and its `rename` or `unlink`. -/
def Apart : Bool → List (Nat × Move) → Prop
  | _, [] => True
  | held, a :: schedule =>
    (a.2 = .openTemp true → held = false) ∧ Apart (a.2.holds held) schedule

section

variable (c : PublishCall)

def PublishCall.unpublished : List Octet := (c.header 0).toBytes ++ c.payload

def PublishCall.published : List Octet := (c.header (fnv1a64 c.payload)).toBytes ++ c.payload

theorem length_toBytes (h : CacheHeader) : h.toBytes.length = sizeofHeader := by
  have hwidths : h.layout.map fst = headerWidths := rfl
  rw [CacheHeader.toBytes, length_fields, hwidths]
  decide

theorem flatten_segments : c.segments.flatten = c.unpublished := by
  rw [PublishCall.segments, PublishCall.unpublished, PublishCall.payload, flatten_filter_ne_nil]
  simp

def Sound (store : Store Name) : Prop :=
  ∀ name ino, store.names name = some ino → ino < store.inodes.length

def Holding (store : Store Name) (ino : Nat) (bytes : List Octet) : Prop :=
  store.Has .temp ino ∧ store.content ino = bytes

/-- What a call has written in each of its phases, whatever there was in the directory before. -/
def Written (store : Store Name) : Phase → Prop
  | .start => Sound store
  | .writing ino offset left failed =>
    store.Has .temp ino ∧
      (failed = false → store.content ino ++ left.flatten = c.unpublished ∧
        offset = (store.content ino).length)
  | .closed => ∃ ino, Holding store ino c.unpublished
  | .reading opened got =>
    ∃ ino, Holding store ino c.unpublished ∧ (∀ j, opened = some j → j = ino) ∧ got <+: c.payload
  | .patching got => ∃ ino, Holding store ino c.unpublished ∧ got = c.payload
  | .patchOpen ino got => Holding store ino c.unpublished ∧ got = c.payload
  | .patched => ∃ ino, Holding store ino c.published
  | .failing | .done => True

section

variable {c} {store store' : Store Name} {ino offset : Nat} {got : List Octet}

theorem openTruncate_temp (h : Sound store) :
    Holding (store.openTruncate .temp).1 (store.openTruncate .temp).2 [] := by
  cases htemp : store.names .temp with
  | none =>
    rcases store.openTruncate_of_none htemp with ⟨hhas, hcontent, -⟩
    exact ⟨hhas, hcontent⟩
  | some ino =>
    have hlt := h .temp ino htemp
    rw [Store.openTruncate, htemp]
    refine ⟨⟨htemp, ?_⟩, ?_⟩
    · simpa using hlt
    · simp [Store.content, getD_eq_getElem?_getD, hlt]

theorem Written.write {seg : List Octet} {left : List (List Octet)} {failed : Bool} {n : Nat}
    (h : Written c store (.writing ino offset (seg :: left) failed)) (hn : n ≤ seg.length) :
    Written c (store.write ino offset (seg.take n))
      (.writing ino (offset + n) (if n = seg.length then left else seg.drop n :: left) failed) := by
  rcases h with ⟨htemp, hbytes⟩
  refine ⟨htemp.write offset _, fun hok => ?_⟩
  rcases hbytes hok with ⟨hbytes, hoffset⟩
  rw [store.content_write htemp.2, hoffset, overlay_end]
  refine ⟨?_, by rw [length_append, length_take, Nat.min_eq_left hn]⟩
  rw [← hbytes, append_assoc, flatten_cons]
  congr 1
  split
  · next hall => rw [hall, take_length]
  · rw [flatten_cons, ← append_assoc, take_append_drop]

theorem Written.read (h : Written c store (.reading (some ino) got)) (n : Nat) :
    Written c store (.reading (some ino) (got ++
      (((store.content ino).drop (sizeofHeader + got.length)).take
        (c.payload.length - got.length)).take n)) := by
  rcases h with ⟨ino', hholding, hopened, rest, hrest⟩
  obtain rfl := hopened ino rfl
  refine ⟨ino, hholding, hopened, ?_⟩
  rw [hholding.2, PublishCall.unpublished, ← drop_drop, drop_left' (length_toBytes _),
    ← hrest, drop_left, take_take]
  exact (prefix_append_right_inj got).mpr ( take_prefix _ _)

theorem Written.pwrite (h : Written c store (.patchOpen ino got)) :
    Written c (store.write ino 0 ((c.header (fnv1a64 got)).toBytes.take sizeofHeader)) .patched := by
  rcases h with ⟨⟨htemp, hcontent⟩, rfl⟩
  refine ⟨ino, htemp.write 0 _, ?_⟩
  rw [store.content_write htemp.2, hcontent, take_of_length_le (length_toBytes _).le,
    PublishCall.unpublished, overlay_front ((length_toBytes _).trans (length_toBytes _).symm)]
  rfl

theorem Written.rename (h : Written c store .patched)
    (hrename : store.rename .temp .final = some store') :
    ∃ ino, store'.names .final = some ino ∧ store'.content ino = c.published := by
  rcases h with ⟨ino, htemp, hcontent⟩
  rw [Store.rename, htemp.1] at hrename
  cases hrename
  exact ⟨ino, rfl, hcontent⟩

theorem Written.rename_done {phase : Phase} (h : Written c store phase)
    (hmove : CachePublish.advance c store phase (.rename true) = some (store', .done)) :
    ∃ ino, store'.names .final = some ino ∧ store'.content ino = c.published := by
  cases phase with
  | patched =>
    simp only [CachePublish.advance, if_true] at hmove
    split at hmove
    · next renamed hrename =>
      cases hmove
      exact h.rename hrename
    · cases hmove
  | writing ino offset left failed => cases left <;> cases hmove
  | reading opened got => cases opened <;> cases hmove
  | start | closed | patching | patchOpen | failing | done => cases hmove

/-- One system call.  The final name changes only with the last one, which publishes the file. -/
theorem Written.advance {phase phase' : Phase} {move : Move} (h : Written c store phase)
    (hmove : CachePublish.advance c store phase move = some (store', phase')) :
    Written c store' phase' ∧ phase' ≠ .start ∧
      (store'.names .final = store.names .final ∨
        ∃ ino, phase' = .done ∧ store'.names .final = some ino ∧
          store'.content ino = c.published) := by
  unfold CachePublish.advance at hmove
  split at hmove
  all_goals try dsimp only at hmove
  all_goals try split at hmove
  all_goals cases hmove
  -- nothing is said of a call that has failed or is done
  all_goals try exact ⟨trivial, by simp, .inl rfl⟩
  · rcases openTruncate_temp h with ⟨htemp, hcontent⟩
    refine ⟨⟨htemp, fun _ => ?_⟩, by simp, .inl (store.names_openTruncate (by decide))⟩
    simp [hcontent, flatten_segments]
  · next hn => exact ⟨h.write hn.2, by simp, .inl rfl⟩
  · exact ⟨⟨h.1, fun hok => absurd hok (by simp)⟩, by simp, .inl rfl⟩
  · next hok =>
    have hbytes := (h.2 hok.1).1
    rw [flatten_nil, append_nil] at hbytes
    exact ⟨⟨_, h.1, hbytes⟩, by simp, .inl rfl⟩
  · rcases h with ⟨ino, hholding⟩
    exact ⟨⟨ino, hholding, fun j hj => some.inj (hj.symm.trans hholding.1.1), nil_prefix⟩, by simp,
      .inl rfl⟩
  · rcases h with ⟨ino, hholding⟩
    exact ⟨⟨ino, hholding, nofun, nil_prefix⟩, by simp, .inl rfl⟩
  · exact ⟨h.read _, by simp, .inl rfl⟩
  · next hall =>
    rcases h with ⟨ino, hholding, -, hgot⟩
    exact ⟨⟨ino, hholding, hgot.eq_of_length hall⟩, by simp, .inl rfl⟩
  · next j hj =>
    rcases h with ⟨ino, hholding, hgot⟩
    split at hj
    · obtain rfl := some.inj (hj.symm.trans hholding.1.1)
      exact ⟨⟨hholding, hgot⟩, by simp, .inl rfl⟩
    · cases hj
  · split
    · next hall =>
      rw [hall.1]
      exact ⟨h.pwrite, by simp, .inl rfl⟩
    · exact ⟨trivial, by simp, .inl rfl⟩
  · next hrename =>
    split at hrename
    · rcases h.rename hrename with ⟨ino, hfinal, hcontent⟩
      exact ⟨trivial, by simp, .inr ⟨ino, rfl, hfinal, hcontent⟩⟩
    · cases hrename

end

/-- A directory in which the two names never stand for one file. -/
def Tidy (store : Store Name) : Prop :=
  Sound store ∧ ∀ ino, store.names .temp = some ino → store.names .final ≠ some ino

def Keeps (store store' : Store Name) : Prop :=
  Tidy store' ∧ ∀ ino, store.names .final = some ino → store'.content ino = store.content ino

section

variable {c} {store store' : Store Name} {phase phase' : Phase} {move : Move} {ino : Nat}

theorem Tidy.keeps_write (h : Tidy store) (htemp : store.names .temp = some ino) (offset : Nat)
    (chunk : List Octet) : Keeps store (store.write ino offset chunk) := by
  refine ⟨⟨fun name j hj => ?_, h.2⟩, fun j hj => store.content_write_of_ne ?_ offset chunk⟩
  · rw [Store.write, length_set]
    exact h.1 name j hj
  · rintro rfl
    exact h.2 j htemp hj

theorem Tidy.keeps_openTruncate (h : Tidy store) (htemp : store.names .temp = none) :
    Keeps store (store.openTruncate .temp).1 := by
  rw [Store.openTruncate, htemp]
  refine ⟨⟨fun name j hj => ?_, fun j hj hfinal => ?_⟩, fun j hj => ?_⟩
  · rw [length_append]
    cases name with
    | temp =>
      cases hj
      exact Nat.lt_succ_self _
    | final => exact Nat.lt_succ_of_lt (h.1 .final j hj)
  · cases hj
    exact Nat.lt_irrefl _ (h.1 .final _ hfinal)
  · rw [Store.content, getD_eq_getElem?_getD, getElem?_append_left (h.1 .final j hj)]
    rfl

theorem Tidy.keeps_unlink (h : Tidy store) : Keeps store (store.unlink .temp) := by
  refine ⟨⟨fun name j hj => ?_, fun j hj => by cases hj⟩, fun _ _ => rfl⟩
  cases name with
  | temp => cases hj
  | final => exact h.1 .final j hj

theorem Tidy.keeps_rename (h : Tidy store) (hrename : store.rename .temp .final = some store') :
    Keeps store store' ∧ store'.names .temp = none := by
  obtain ⟨ino, htemp, rfl⟩ := map_eq_some_iff.mp hrename
  refine ⟨⟨⟨fun name j hj => ?_, fun j hj => by cases hj⟩, fun _ _ => rfl⟩, rfl⟩
  cases name with
  | temp => cases hj
  | final =>
    cases hj
    exact h.1 .temp _ htemp

/-- A call that has the temporary file writes to no other, and has removed the name when it is
done. -/
theorem Written.keeps (h : Written c store phase) (htidy : Tidy store) (hstart : phase ≠ .start)
    (hmove : CachePublish.advance c store phase move = some (store', phase')) :
    Keeps store store' ∧ (phase' ≠ .done ∧ move.holds true = true ∨
      phase' = .done ∧ move.holds true = false ∧ store'.names .temp = none) := by
  unfold CachePublish.advance at hmove
  split at hmove
  all_goals try exact absurd rfl hstart
  all_goals try dsimp only at hmove
  all_goals try split at hmove
  all_goals cases hmove
  -- most of the calls leave the directory and its files as they are
  all_goals try exact ⟨⟨htidy, fun _ _ => rfl⟩, .inl ⟨by simp, rfl⟩⟩
  · exact ⟨htidy.keeps_write h.1.1 _ _, .inl ⟨by simp, rfl⟩⟩
  · exact ⟨htidy.keeps_write h.1.1.1 _ _, .inl ⟨by split <;> simp, rfl⟩⟩
  · next hrename =>
    split at hrename
    · next hok =>
      obtain ⟨hkeeps, htemp⟩ := htidy.keeps_rename hrename
      exact ⟨hkeeps, .inr ⟨rfl, by rw [hok]; rfl, htemp⟩⟩
    · cases hrename
  · next hrename =>
    obtain ⟨ino, htemp, -⟩ := h
    rw [Store.rename, htemp.1] at hrename
    split at hrename
    · cases hrename
    · next hok => exact ⟨⟨htidy, fun _ _ => rfl⟩, .inl ⟨by simp, by simp [Move.holds, hok]⟩⟩
  · exact ⟨htidy.keeps_unlink, .inr ⟨rfl, rfl, rfl⟩⟩

end

/-- The call that has the temporary file is in the middle of its work, and the others are not. -/
def Placed (owner : Option Nat) (store : Store Name) (i : Nat) (phase : Phase) : Prop :=
  if owner = some i then Written c store phase ∧ phase ≠ .start ∧ phase ≠ .done
  else phase = .start ∨ phase = .done

structure Orderly (calls : List PublishCall) (owner : Option Nat) (s : System) : Prop where
  tidy : Tidy s.store
  whole : ∀ ino, s.store.names .final = some ino → ∃ c ∈ calls, s.store.content ino = c.published
  free : owner = none → s.store.names .temp = none
  placed : ∀ i c phase, calls[i]? = some c → s.phases[i]? = some phase →
    Placed c owner s.store i phase

/-- A move of the call at `i`, of which the others notice nothing if one of them has the file. -/
theorem Orderly.move {c : PublishCall} {calls : List PublishCall} {owner owner' : Option Nat}
    {s : System} {i : Nat} {move : Move} {phase phase' : Phase} {store' : Store Name}
    (h : Orderly calls owner s) (hc : calls[i]? = some c) (hphase : s.phases[i]? = some phase)
    (hmove : advance c s.store phase move = some (store', phase'))
    (hwritten : Written c s.store phase) (hkeeps : Keeps s.store store')
    (hfree : owner' = none → store'.names .temp = none) (hplaced : Placed c owner' store' i phase')
    (hothers : ∀ j, j ≠ i → (owner' = some j ↔ owner = some j) ∧ (owner = some j → store' = s.store)) :
    Orderly calls owner' ⟨store', s.phases.set i phase'⟩ := by
  refine ⟨hkeeps.1, fun ino hino => ?_, hfree, fun j c' phase'' hc' hphase'' => ?_⟩
  · rcases (hwritten.advance hmove).2.2 with hfinal | ⟨ino', -, hfinal, hcontent⟩
    · have hino' := hfinal.symm.trans hino
      obtain ⟨c', hc', hcontent⟩ := h.whole ino hino'
      exact ⟨c', hc', (hkeeps.2 ino hino').trans hcontent⟩
    · obtain rfl := some.inj (hfinal.symm.trans hino)
      exact ⟨c, mem_of_getElem? hc, hcontent⟩
  · by_cases hj : j = i
    · subst hj
      have hlt := (List.getElem?_eq_some_iff.mp hphase).choose
      rw [List.getElem?_set_self hlt] at hphase''
      cases hphase''
      obtain rfl := some.inj (hc.symm.trans hc')
      exact hplaced
    · rw [List.getElem?_set_ne (Ne.symm hj)] at hphase''
      have hother := h.placed j c' phase'' hc' hphase''
      grind [Placed]

theorem Orderly.step {calls : List PublishCall} {owner : Option Nat} {s s' : System} {i : Nat}
    {move : Move} (h : Orderly calls owner s) (hopen : move = .openTemp true → owner.isSome = false)
    (hstep : CachePublish.step calls s i move = some s') :
    ∃ owner' : Option Nat, owner'.isSome = move.holds owner.isSome ∧ Orderly calls owner' s' := by
  obtain ⟨c, hc, hstep⟩ := bind_eq_some_iff.mp hstep
  obtain ⟨phase, hphase, hstep⟩ := bind_eq_some_iff.mp hstep
  obtain ⟨⟨store', phase'⟩, hmove, rfl⟩ := map_eq_some_iff.mp hstep
  have hself := h.placed i c phase hc hphase
  rw [Placed] at hself
  split at hself
  · next howner =>
    obtain ⟨hwritten, hstart, -⟩ := hself
    obtain ⟨hkeeps, ⟨hactive, hholds⟩ | ⟨rfl, hholds, htemp⟩⟩ := hwritten.keeps h.tidy hstart hmove
    · refine ⟨owner, by rw [howner]; exact hholds.symm, h.move hc hphase hmove hwritten hkeeps
        (by grind) ?_ (by grind)⟩
      rw [Placed, if_pos howner]
      exact ⟨(hwritten.advance hmove).1, (hwritten.advance hmove).2.1, hactive⟩
    · exact ⟨none, by rw [howner]; exact hholds.symm,
        h.move hc hphase hmove hwritten hkeeps (fun _ => htemp) (.inr rfl) (by grind)⟩
  · next howner =>
    rcases hself with rfl | rfl
    · cases move with
      | openTemp ok =>
        cases ok with
        | true =>
          obtain rfl : owner = none := by simpa using hopen rfl
          have hwritten := Written.advance (show Written c s.store .start from h.tidy.1) hmove
          refine ⟨some i, rfl, h.move hc hphase hmove h.tidy.1 ?_ nofun ?_ (by grind)⟩
          · cases hmove
            exact h.tidy.keeps_openTruncate (h.free rfl)
          · rw [Placed, if_pos rfl]
            cases hmove
            exact ⟨hwritten.1, hwritten.2.1, by simp⟩
        | false =>
          refine ⟨owner, rfl, h.move hc hphase hmove h.tidy.1 ?_ ?_ ?_ ?_⟩ <;> cases hmove
          · exact ⟨h.tidy, fun _ _ => rfl⟩
          · exact h.free
          · rw [Placed, if_neg howner]
            exact .inr rfl
          · exact fun _ _ => ⟨Iff.rfl, fun _ => rfl⟩
      | _ => cases hmove
    · cases hmove

theorem Orderly.run {calls : List PublishCall} {owner : Option Nat} {schedule : List (Nat × Move)}
    {s s' : System} (h : Orderly calls owner s) (hapart : Apart owner.isSome schedule)
    (hrun : CachePublish.run calls schedule s = some s') : ∃ owner', Orderly calls owner' s' := by
  induction schedule generalizing s owner with
  | nil =>
    cases hrun
    exact ⟨owner, h⟩
  | cons a schedule ih =>
    obtain ⟨t, hstep, hrun⟩ := bind_eq_some_iff.mp hrun
    obtain ⟨owner', howner', hnext⟩ := h.step hapart.1 hstep
    exact ih hnext (howner' ▸ hapart.2) hrun

theorem orderly_initial (calls : List PublishCall) : Orderly calls none (initial calls) := by
  refine ⟨⟨fun _ _ h => (nomatch h), fun _ h => nomatch h⟩, fun _ h => (nomatch h), fun _ => rfl,
    fun i c phase _ hphase => .inl ?_⟩
  rw [initial, List.getElem?_map] at hphase
  obtain ⟨-, -, rfl⟩ := map_eq_some_iff.mp hphase
  rfl

theorem holds_published {key : CacheKey} {opened : OpenedCache}
    (h : startupCacheOpen key c.published = some opened) : Holds c.published opened c := by
  obtain ⟨hfirst, hsecond, hthird, -⟩ := slices_of_open h
  obtain ⟨-, -, -, -, -, -, -, -, rfl⟩ := startupCacheOpen_eq_some.mp h
  have hsize := c.size_lt
  have hpatches := c.patches_length
  rw [sizeofHeader] at hsize
  rw [sizeofPatch] at hpatches
  have hheader : CacheHeader.ofBytes c.published = c.header (fnv1a64 c.payload) :=
    CacheHeader.ofBytes_toBytes _ _
  have heh : (CacheHeader.ofBytes c.published).ehFrameSize.toNat = c.ehFrame.length := by
    rw [hheader]
    exact mod_eq_of_lt (by omega)
  have hpairs : (CacheHeader.ofBytes c.published).hdrPairsSize.toNat = c.hdrPairs.length := by
    rw [hheader]
    exact mod_eq_of_lt (by omega)
  have hcount : (CacheHeader.ofBytes c.published).patchCount.toNat = c.patchCount := by
    rw [hheader]
    exact mod_eq_of_lt (by omega)
  rw [heh] at hfirst
  rw [heh, hpairs, mod_eq_of_lt (by omega)] at hsecond
  rw [heh, hpairs, hcount, mod_eq_of_lt (by omega), ← hpatches] at hthird
  have hdrop : c.published.drop 120 = c.ehFrame ++ (c.hdrPairs ++ c.patches) := by
    rw [PublishCall.published, PublishCall.payload, append_assoc]
    exact drop_left' (length_toBytes _)
  rw [Holds, hfirst, hsecond, hthird]
  refine ⟨?_, ?_, ?_⟩
  · rw [part, hdrop, take_left]
  · rw [part, ← drop_drop, hdrop, drop_left, take_left]
  · rw [part, ← drop_drop, ← drop_drop, hdrop, drop_left, drop_left, take_length]

end

/-- Any number of calls, of which none opens the temporary file while another has it: in every
state on the way an accepted file is one call's. -/
theorem publishes_whole {calls : List PublishCall} {schedule : List (Nat × Move)} {s : System}
    (hapart : Apart false schedule) (hrun : run calls schedule (initial calls) = some s) :
    Whole calls s := by
  intro ino key opened hfinal hopen
  obtain ⟨owner, h⟩ := (orderly_initial calls).run hapart hrun
  obtain ⟨c, hc, hcontent⟩ := h.whole ino hfinal
  rw [hcontent] at hopen ⊢
  exact ⟨c, hc, holds_published c hopen⟩

theorem uniform_size_lt (v : Octet) :
    sizeofHeader + (replicate 4 v).length + (replicate 16 v).length +
      ([] : List Octet).length < 2 ^ 63 := by
  rw [length_replicate, length_replicate]
  decide

def uniformCall (v : Octet) : PublishCall :=
  { ehFrame := List.replicate 4 v, hdrPairs := List.replicate 16 v, patches := [], patchCount := 0
    ciePersonalityOffset := 19, fdeCount := 1, key := ⟨1, 2, 3, 4, 5, 0⟩
    patches_length := rfl, size_lt := uniform_size_lt v }

/-- Both calls open the file; the first writes all it has, the second its header and its blob; the
first reads the mixture back, and it is published with the second's blob and the first's pairs. -/
def mixedSchedule : List (Nat × Move) :=
  [(0, .openTemp true), (1, .openTemp true), (0, .write 120), (0, .write 4), (0, .write 16),
    (1, .write 120), (1, .write 4), (0, .closeTemp true), (0, .openChecksum true), (0, .read 20),
    (0, .endRead), (0, .openPatch true), (0, .pwrite 120 true), (0, .rename true)]

/-- The file under the final name after a run, with the blob and the pairs an open finds in it. -/
def publishedArrays (calls : List PublishCall) (schedule : List (Nat × Move)) (key : CacheKey) :
    Option (List Octet × List Octet) :=
  (run calls schedule (initial calls)).bind fun s =>
    (s.store.names .final).bind fun ino =>
      (startupCacheOpen key (s.store.content ino)).map fun opened =>
        (part (s.store.content ino) opened.ehFrameSlice,
          part (s.store.content ino) opened.hdrPairsSlice)

theorem mixed_arrays :
    publishedArrays [uniformCall 1, uniformCall 2] mixedSchedule ⟨1, 2, 3, 4, 5, 0⟩ =
      some (replicate 4 2, replicate 16 1) := by
  decide +kernel

/-- One call after the other, the second of which replaces the first one's file. -/
def turns : List (Nat × Move) :=
  [0, 1].flatMap fun i =>
    [(i, .openTemp true), (i, .write 120), (i, .write 4), (i, .write 16), (i, .closeTemp true),
      (i, .openChecksum true), (i, .read 20), (i, .endRead), (i, .openPatch true),
      (i, .pwrite 120 true), (i, .rename true)]

theorem turns_publish_whole :
    publishedArrays [uniformCall 1, uniformCall 2] turns ⟨1, 2, 3, 4, 5, 0⟩ =
        some (replicate 4 2, replicate 16 2) ∧
      ∃ s, run [uniformCall 1, uniformCall 2] turns (initial [uniformCall 1, uniformCall 2]) =
        some s ∧ Whole [uniformCall 1, uniformCall 2] s := by
  have harrays : publishedArrays [uniformCall 1, uniformCall 2] turns ⟨1, 2, 3, 4, 5, 0⟩ =
      some (replicate 4 2, replicate 16 2) := by decide +kernel
  obtain ⟨s, hrun, -⟩ := bind_eq_some_iff.mp harrays
  exact ⟨harrays, s, hrun, publishes_whole (by simp [turns, Apart, Move.holds]) hrun⟩

theorem mixed_publication :
    ∃ s, run [uniformCall 1, uniformCall 2] mixedSchedule
        (initial [uniformCall 1, uniformCall 2]) = some s ∧
      ¬ Whole [uniformCall 1, uniformCall 2] s := by
  obtain ⟨s, hrun, hfile⟩ := bind_eq_some_iff.mp mixed_arrays
  obtain ⟨ino, hfinal, hfile⟩ := bind_eq_some_iff.mp hfile
  obtain ⟨opened, hopen, harrays⟩ := map_eq_some_iff.mp hfile
  obtain ⟨hblob, hpairs⟩ := mk.inj harrays
  refine ⟨s, hrun, fun hwhole => ?_⟩
  obtain ⟨c, hc, hholds⟩ := hwhole ino _ opened hfinal hopen
  rcases mem_pair.mp hc with rfl | rfl
  · exact absurd (hblob.symm.trans hholds.1) (by decide)
  · exact absurd (hpairs.symm.trans hholds.2.1) (by decide)

end Machgate.CachePublish

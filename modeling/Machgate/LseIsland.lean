import Machgate.Arm64Encoders
import Machgate.IslandFrame
import Machgate.LseDecode
import Machgate.ScratchRegisters

namespace Machgate.LseIsland

open Arm64Encoders CodeBlock ConditionFlags Instructions IslandFrame LseDecode MachineState List
  ScratchRegisters StackFrame WordPointers

def isX (size : BitVec 2) : Bool :=
  size == 3#2

def casMask (d : LseDecoded) : Word :=
  bit 31#5 ||| bit d.rs ||| bit d.rt ||| bit d.rn

def rmwMask (d : LseDecoded) : Word :=
  if d.rt = 31#5 then bit 31#5 ||| bit d.rs ||| bit d.rn
  else bit 31#5 ||| bit d.rs ||| bit d.rn ||| bit d.rt

/-- The branch at word `n` of the island, to the instruction after the
original one. -/
def returnBranch (island origAddr : WordPtr) (n : Nat) : Word :=
  encB (BitVec.ofInt 32 (wordDistance (origAddr + 1#62) (island + BitVec.ofNat 62 n)))

def casWords (d : LseDecoded) (s1 s2 : Reg) (island origAddr : WordPtr) : List Word :=
  let saved := [encStrPre s1, encStrPre s2, encMrsNzcv s1, encStrPre s1]
  let loop := saved ++
    [encLdxr d.size d.acquire s2 d.rn, encCmp (isX d.size) s2 d.rs, bNeAhead3,
      encStxr d.size d.release s1 d.rt d.rn]
  let retry := loop ++ [encCbnzW s1 (BitVec.ofInt 32 ((saved.length : Int) - loop.length))]
  let result := retry ++ [clrexWord] ++
    (if d.rs = 31#5 then [] else [encMov (isX d.size) d.rs s2])
  let restored := result ++ [encLdrPost s1, encMsrNzcv s1, encLdrPost s2, encLdrPost s1]
  restored ++ [returnBranch island origAddr restored.length]

def emitCasIsland (d : LseDecoded) (island origAddr : WordPtr) : List Word :=
  let s1 := pickScratch (casMask d)
  let s2 := pickScratch (casMask d ||| bit s1)
  casWords d s1 s2 island origAddr

/-- The `switch` over the operation: from the loaded value `s1` and the
operand to the value `s2` that is stored. -/
def opWords (d : LseDecoded) (s1 s2 s3 : Reg) : List Word :=
  match d.op with
  | .ldadd => [encAdd (isX d.size) s2 s1 d.rs]
  | .ldclr => [encBic (isX d.size) s2 s1 d.rs]
  | .ldeor => [encEor (isX d.size) s2 s1 d.rs]
  | .ldset => [encOrr (isX d.size) s2 s1 d.rs]
  | .ldsmax | .ldsmin =>
    (if d.size.toNat < 2 then
      [if d.size = 0#2 then encSxtb s2 s1 else encSxth s2 s1,
        if d.size = 0#2 then encSxtb s3 d.rs else encSxth s3 d.rs,
        encCmp false s2 s3]
    else [encCmp (isX d.size) s1 d.rs]) ++
      [encCsel (isX d.size) s2 d.rs s1 (if d.op = .ldsmax then condLt else condGt)]
  | .ldumax | .ldumin =>
    [encCmp (isX d.size) s1 d.rs,
      encCsel (isX d.size) s2 d.rs s1 (if d.op = .ldumax then condLo else condHi)]
  | .swp => [encMov (isX d.size) s2 d.rs]
  | .cas => []

def rmwWords (d : LseDecoded) (s1 s2 s3 : Reg) (island origAddr : WordPtr) : List Word :=
  let saved := [encStrPre s1, encStrPre s2, encStrPre s3, encMrsNzcv s1, encStrPre s1]
  let loop := saved ++ [encLdxr d.size d.acquire s1 d.rn] ++ opWords d s1 s2 s3 ++
    [encStxr d.size d.release s3 s2 d.rn]
  let retry := loop ++ [encCbnzW s3 (BitVec.ofInt 32 ((saved.length : Int) - loop.length))]
  let result := retry ++ (if d.rt = 31#5 then [] else [encMov (isX d.size) d.rt s1])
  let restored := result ++
    [encLdrPost s1, encMsrNzcv s1, encLdrPost s3, encLdrPost s2, encLdrPost s1]
  restored ++ [returnBranch island origAddr restored.length]

def emitRmwIsland (d : LseDecoded) (island origAddr : WordPtr) : List Word :=
  let s1 := pickScratch (rmwMask d)
  let s2 := pickScratch (rmwMask d ||| bit s1)
  let s3 := pickScratch (rmwMask d ||| bit s1 ||| bit s2)
  rmwWords d s1 s2 s3 island origAddr

def emitIsland (d : LseDecoded) (island origAddr : WordPtr) : List Word :=
  if d.op = .cas then emitCasIsland d island origAddr else emitRmwIsland d island origAddr

def operands (d : LseDecoded) : List Reg :=
  [d.rt, d.rn, d.rs, 31#5]

theorem rt_mem_operands (d : LseDecoded) : d.rt ∈ operands d := by
  simp [operands]

theorem rn_mem_operands (d : LseDecoded) : d.rn ∈ operands d := by
  simp [operands]

theorem rs_mem_operands (d : LseDecoded) : d.rs ∈ operands d := by
  simp [operands]

theorem sp_mem_operands (d : LseDecoded) : stackPointer ∈ operands d := by
  simp [operands]

variable {d : LseDecoded}

theorem ne_sp_of_notMem {r : Reg} (hr : r ∉ operands d) : r ≠ stackPointer := by
  rintro rfl
  exact hr (sp_mem_operands d)

theorem excludes_casMask (d : LseDecoded) : Excludes (casMask d) (operands d) := by
  intro r
  rw [casMask, (((excludes_bit 31#5).or d.rs).or d.rt).or d.rn r]
  simp only [operands, mem_cons]
  tauto

theorem excludes_rmwMask (d : LseDecoded) : Excludes (rmwMask d) (operands d) := by
  intro r
  rw [rmwMask]
  split
  · rename_i hrt
    rw [((excludes_bit 31#5).or d.rs).or d.rn r]
    simp only [operands, hrt, mem_cons]
    tauto
  · exact (((excludes_bit 31#5).or d.rs).or d.rn).or d.rt r

def casScratch (d : LseDecoded) : ScratchPair (operands d) :=
  pickPair (excludes_casMask d) (show 4 + 1 < 20 by decide)

def rmwScratch (d : LseDecoded) : ScratchTriple (operands d) :=
  pickTriple (excludes_rmwMask d) (show 4 + 2 < 20 by decide)

/-- `mov rd, rn`, left out when the destination is the zero register. -/
def movUnlessZero (sf : Bool) (rd rn : Reg) : List Instr :=
  if rd = 31#5 then [] else [.alu .orr sf rd 31#5 rn]

def casLoop (d : LseDecoded) (p : ScratchPair (operands d)) : List Instr :=
  [.ldxr d.size d.acquire p.s2 d.rn, .subs (isX d.size) 31#5 p.s2 d.rs, .bCond condNe 3#19,
    .stxr d.size d.release p.s1 d.rt d.rn]

def casTail (d : LseDecoded) (p : ScratchPair (operands d)) : List Instr :=
  .clrex :: movUnlessZero (isX d.size) d.rs p.s2

def casProgram (d : LseDecoded) (p : ScratchPair (operands d)) (back : BitVec 26) : List Instr :=
  islandProgram p.regs p.s1 (casLoop d p) p.s1 (casTail d p) back

def rmwOps (d : LseDecoded) (p : ScratchTriple (operands d)) : List Instr :=
  match d.op with
  | .ldadd => [.alu .add (isX d.size) p.s2 p.s1 d.rs]
  | .ldclr => [.alu .bic (isX d.size) p.s2 p.s1 d.rs]
  | .ldeor => [.alu .eor (isX d.size) p.s2 p.s1 d.rs]
  | .ldset => [.alu .orr (isX d.size) p.s2 p.s1 d.rs]
  | .ldsmax | .ldsmin =>
    (if d.size.toNat < 2 then
      [if d.size = 0#2 then .sxtbW p.s2 p.s1 else .sxthW p.s2 p.s1,
        if d.size = 0#2 then .sxtbW p.s3 d.rs else .sxthW p.s3 d.rs,
        .subs false 31#5 p.s2 p.s3]
    else [.subs (isX d.size) 31#5 p.s1 d.rs]) ++
      [.csel (isX d.size) p.s2 d.rs p.s1 (if d.op = .ldsmax then condLt else condGt)]
  | .ldumax | .ldumin =>
    [.subs (isX d.size) 31#5 p.s1 d.rs,
      .csel (isX d.size) p.s2 d.rs p.s1 (if d.op = .ldumax then condLo else condHi)]
  | .swp => [.alu .orr (isX d.size) p.s2 31#5 d.rs]
  | .cas => []

/-- What stands between the two exclusives: computations that write scratch registers only. -/
inductive ScratchOp (s2 s3 : Reg) : Instr → Prop
  | alu (op : AluOp) (sf : Bool) (rn rm : Reg) : ScratchOp s2 s3 (.alu op sf s2 rn rm)
  | subs (sf : Bool) (rn rm : Reg) : ScratchOp s2 s3 (.subs sf 31#5 rn rm)
  | csel (sf : Bool) (rn rm : Reg) (cond : BitVec 4) : ScratchOp s2 s3 (.csel sf s2 rn rm cond)
  | sxtb {rd : Reg} (rn : Reg) (h : rd = s2 ∨ rd = s3) : ScratchOp s2 s3 (.sxtbW rd rn)
  | sxth {rd : Reg} (rn : Reg) (h : rd = s2 ∨ rd = s3) : ScratchOp s2 s3 (.sxthW rd rn)

theorem scratchOp_of_mem_rmwOps {p : ScratchTriple (operands d)} {i : Instr}
    (hi : i ∈ rmwOps d p) : ScratchOp p.s2 p.s3 i := by
  have hsingle : ∀ op rn rm, i ∈ [Instr.alu op (isX d.size) p.s2 rn rm] → ScratchOp p.s2 p.s3 i := by
    rintro op rn rm h
    rw [mem_singleton.mp h]
    exact .alu op _ rn rm
  have hchoose : ∀ sf rn rm sf' rn' rm' cond,
      i ∈ [Instr.subs sf 31#5 rn rm, .csel sf' p.s2 rn' rm' cond] → ScratchOp p.s2 p.s3 i := by
    rintro sf rn rm sf' rn' rm' cond h
    rcases mem_pair.mp h with rfl | rfl
    · exact .subs sf rn rm
    · exact .csel sf' rn' rm' cond
  have hextend : ∀ {rd : Reg} (rn : Reg), rd = p.s2 ∨ rd = p.s3 →
      ScratchOp p.s2 p.s3 (if d.size = 0#2 then .sxtbW rd rn else .sxthW rd rn) := by
    intro rd rn hrd
    split
    · exact .sxtb rn hrd
    · exact .sxth rn hrd
  have hsigned : ∀ cond, i ∈ (if d.size.toNat < 2 then
      [if d.size = 0#2 then Instr.sxtbW p.s2 p.s1 else .sxthW p.s2 p.s1,
        if d.size = 0#2 then .sxtbW p.s3 d.rs else .sxthW p.s3 d.rs, .subs false 31#5 p.s2 p.s3]
      else [.subs (isX d.size) 31#5 p.s1 d.rs]) ++ [.csel (isX d.size) p.s2 d.rs p.s1 cond] →
      ScratchOp p.s2 p.s3 i := by
    intro cond h
    split at h
    · rcases mem_cons.mp h with rfl | h
      · exact hextend p.s1 (Or.inl rfl)
      · rcases mem_cons.mp h with rfl | h
        · exact hextend d.rs (Or.inr rfl)
        · exact hchoose _ _ _ _ _ _ _ h
    · exact hchoose _ _ _ _ _ _ _ h
  unfold rmwOps at hi
  cases hcase : d.op with
  | ldadd => exact hsingle .add _ _ (by rwa [hcase] at hi)
  | ldclr => exact hsingle .bic _ _ (by rwa [hcase] at hi)
  | ldeor => exact hsingle .eor _ _ (by rwa [hcase] at hi)
  | ldset | swp => exact hsingle .orr _ _ (by rwa [hcase] at hi)
  | ldsmax | ldsmin => exact hsigned _ (by rwa [hcase] at hi)
  | ldumax | ldumin => exact hchoose _ _ _ _ _ _ _ (by rwa [hcase] at hi)
  | cas =>
    rw [hcase] at hi
    exact absurd hi not_mem_nil

def rmwLoop (d : LseDecoded) (p : ScratchTriple (operands d)) : List Instr :=
  .ldxr d.size d.acquire p.s1 d.rn :: rmwOps d p ++ [.stxr d.size d.release p.s3 p.s2 d.rn]

def rmwProgram (d : LseDecoded) (p : ScratchTriple (operands d)) (back : BitVec 26) :
    List Instr :=
  islandProgram p.regs p.s1 (rmwLoop d p) p.s3 (movUnlessZero (isX d.size) d.rt p.s1) back

theorem length_rmwLoop_le (d : LseDecoded) (p : ScratchTriple (operands d)) :
    (rmwLoop d p).length ≤ 6 := by
  have hops : (rmwOps d p).length ≤ 4 := by
    unfold rmwOps
    cases d.op <;> dsimp only <;> first | (split <;> simp) | simp
  simp only [rmwLoop, length_append, length_cons, length_nil]
  omega

theorem map_decode_opWords (d : LseDecoded) (p : ScratchTriple (operands d)) :
    (opWords d p.s1 p.s2 p.s3).map decode = (rmwOps d p).map some := by
  unfold opWords rmwOps
  split
  all_goals first | (split_ifs <;> simp) | simp

def returnOffset (island origAddr : WordPtr) (n : Nat) : BitVec 26 :=
  (BitVec.ofInt 32 (wordDistance (origAddr + 1#62) (island + BitVec.ofNat 62 n))).setWidth 26

theorem decode_returnBranch (island origAddr : WordPtr) (n : Nat) :
    decode (returnBranch island origAddr n) = some (.b (returnOffset island origAddr n)) :=
  decode_encB _

theorem map_decode_mov (sf : Bool) (rd rn : Reg) :
    (if rd = 31#5 then [] else [encMov sf rd rn]).map decode =
      (movUnlessZero sf rd rn).map some := by
  unfold movUnlessZero
  split <;> simp

def islandWords (d : LseDecoded) : Nat :=
  match d.op with
  | .cas => 15 + if d.rs = 31#5 then 0 else 1
  | .ldsmax | .ldsmin =>
    14 + (if d.size.toNat < 2 then 4 else 2) + if d.rt = 31#5 then 0 else 1
  | .ldumax | .ldumin => 16 + if d.rt = 31#5 then 0 else 1
  | _ => 15 + if d.rt = 31#5 then 0 else 1

theorem length_emitIsland (d : LseDecoded) (island origAddr : WordPtr) :
    (emitIsland d island origAddr).length = islandWords d := by
  unfold emitIsland islandWords emitCasIsland emitRmwIsland casWords rmwWords opWords
  cases d.op <;> simp <;> split_ifs <;> simp

theorem getElem?_emitIsland (d : LseDecoded) (island origAddr : WordPtr) :
    (emitIsland d island origAddr)[islandWords d - 1]? =
      some (returnBranch island origAddr (islandWords d - 1)) := by
  have hshape : ∃ body, emitIsland d island origAddr =
      body ++ [returnBranch island origAddr body.length] := by
    unfold emitIsland emitCasIsland emitRmwIsland casWords rmwWords
    split
    · exact ⟨_, rfl⟩
    · exact ⟨_, rfl⟩
  obtain ⟨body, hbody⟩ := hshape
  have hlength := length_emitIsland d island origAddr
  rw [hbody, length_append, length_singleton] at hlength
  rw [← hlength, Nat.add_sub_cancel, hbody, getElem?_concat_length]

theorem islandWords_le (d : LseDecoded) : islandWords d ≤ 19 := by
  unfold islandWords
  cases d.op <;> dsimp only <;> split_ifs <;> decide

theorem three_le_islandWords (d : LseDecoded) : 3 ≤ islandWords d := by
  unfold islandWords
  cases d.op <;> dsimp only <;> omega

def islandBlock (d : LseDecoded) (island origAddr : WordPtr) : Block where
  base := island
  words := emitIsland d island origAddr
  fits := by
    rw [length_emitIsland]
    exact (islandWords_le d).trans_lt (by decide)

/-- The last branch leads behind the original instruction exactly when the
island does not start too far above it. -/
theorem lastBranch_iff {c : Block} {origAddr : WordPtr} {n : Nat}
    (hfits : FitsBranch (wordDistance c.base origAddr)) (hn : c.words.length = n)
    (hlow : 3 ≤ n) (hhigh : n ≤ 19) :
    c.lastAddr + branchOffset (returnOffset c.base origAddr (n - 1)) = toAddr origAddr + 4#64 ↔
      wordDistance c.base origAddr + n ≤ 0x02000002 := by
  have hlast : c.lastAddr = toAddr (c.base + BitVec.ofNat 62 (n - 1)) := by
    rw [← hn]
    rfl
  rw [hlast, ← toAddr_next, returnOffset, branch_reaches_iff,
    fitsBranch_return_iff hfits hlow (by omega)]

theorem returns_iff (d : LseDecoded) {island origAddr : WordPtr}
    (hfits : FitsBranch (wordDistance island origAddr)) :
    (islandBlock d island origAddr).lastAddr +
          branchOffset (returnOffset island origAddr (islandWords d - 1)) =
        toAddr origAddr + 4#64 ↔
      wordDistance island origAddr + islandWords d ≤ 0x02000002 :=
  lastBranch_iff (c := islandBlock d island origAddr) hfits (length_emitIsland d island origAddr)
    (three_le_islandWords d) (islandWords_le d)

theorem implements_casProgram (hop : d.op = .cas) (island origAddr : WordPtr) :
    (islandBlock d island origAddr).Implements (casProgram d (casScratch d)
      (returnOffset island origAddr (islandWords d - 1))) := by
  have hwords : (islandBlock d island origAddr).words =
      casWords d (casScratch d).s1 (casScratch d).s2 island origAddr := if_pos hop
  have hlength := length_emitIsland d island origAddr
  rw [Block.Implements, ← hlength, show emitIsland d island origAddr = _ from hwords, hwords]
  generalize casScratch d = p
  simp only [casWords, map_append, map_decode_mov, casProgram]
  simp [ScratchPair.regs, islandProgram, prologue, epilogue, casLoop, casTail, decode_returnBranch, backOver]

theorem implements_rmwProgram (hop : d.op ≠ .cas) (island origAddr : WordPtr) :
    (islandBlock d island origAddr).Implements (rmwProgram d (rmwScratch d)
      (returnOffset island origAddr (islandWords d - 1))) := by
  have hwords : (islandBlock d island origAddr).words =
      rmwWords d (rmwScratch d).s1 (rmwScratch d).s2 (rmwScratch d).s3 island origAddr :=
    if_neg hop
  have hlength := length_emitIsland d island origAddr
  have hops := map_decode_opWords d (rmwScratch d)
  rw [Block.Implements, ← hlength, show emitIsland d island origAddr = _ from hwords, hwords]
  generalize rmwScratch d = p at hops
  have hoplength : (opWords d p.s1 p.s2 p.s3).length = (rmwOps d p).length := by
    simpa using congrArg length hops
  simp only [rmwWords, map_append, map_decode_mov, rmwProgram, hops]
  simp [ScratchTriple.regs, islandProgram, prologue, epilogue, rmwLoop, decode_returnBranch, backOver, hoplength]
  constructor
  · congr 2
    omega
  · congr 1

end Machgate.LseIsland

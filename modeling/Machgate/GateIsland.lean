import Machgate.Arm64Encoders
import Machgate.GateInstructions

namespace Machgate.GateIsland

open Arm64Encoders ByteMemory CodeBlock ConditionFlags GateInstructions Instructions MachineState
open List BitVec Option
open WordPointers

def encStpSp (rt rt2 : Reg) (offset : BitVec 32) : Word :=
  0xA9000000#32 ||| (offset / 8#32) <<< 15 ||| rt2.setWidth 32 <<< 10 ||| 31#32 <<< 5 |||
    rt.setWidth 32

def encLdpSp (rt rt2 : Reg) (offset : BitVec 32) : Word :=
  0xA9400000#32 ||| (offset / 8#32) <<< 15 ||| rt2.setWidth 32 <<< 10 ||| 31#32 <<< 5 |||
    rt.setWidth 32

def encStrSp (rt : Reg) (offset : BitVec 32) : Word :=
  0xF9000000#32 ||| (offset / 8#32) <<< 10 ||| 31#32 <<< 5 ||| rt.setWidth 32

def encLdrSp (rt : Reg) (offset : BitVec 32) : Word :=
  0xF9400000#32 ||| (offset / 8#32) <<< 10 ||| 31#32 <<< 5 ||| rt.setWidth 32

def encSubSp (imm : BitVec 32) : Word := 0xD10003FF#32 ||| imm <<< 10

def encAddSp (imm : BitVec 32) : Word := 0x910003FF#32 ||| imm <<< 10

def encAddX0Sp0 : Word := 0x910003E0#32

def encLdrLiteral (rt : Reg) (instr literal : WordPtr) : Word :=
  0x58000000#32 ||| (BitVec.ofInt 32 (wordDistance literal instr) &&& 0x7FFFF#32) <<< 5 |||
    rt.setWidth 32

def encBlr (rn : Reg) : Word := 0xD63F0000#32 ||| rn.setWidth 32 <<< 5

def encBr (rn : Reg) : Word := 0xD61F0000#32 ||| rn.setWidth 32 <<< 5

def encNop : Word := 0xD503201F#32

def syscallGateIslandWords : Nat := 96

def dispatcherLiteral (island : WordPtr) : WordPtr :=
  island + BitVec.ofNat 62 (syscallGateIslandWords - 4)

def resumeLiteral (island : WordPtr) : WordPtr :=
  island + BitVec.ofNat 62 (syscallGateIslandWords - 2)

def emitCode (island : WordPtr) : List Word :=
  [encSubSp 192,
   encStpSp 0 1 0, encStpSp 2 3 16, encStpSp 4 5 32, encStpSp 6 7 48, encStpSp 8 9 64,
   encStpSp 10 11 80, encStpSp 12 13 96, encStpSp 14 15 112, encStpSp 16 17 128,
   encStrSp 18 144, encStrSp 30 152,
   encMrsNzcv 16, encStrSp 16 160,
   encLdrLiteral 16 (island + 14#62) (resumeLiteral island), encStrSp 16 168,
   encAddX0Sp0,
   encLdrLiteral 16 (island + 17#62) (dispatcherLiteral island), encBlr 16,
   encLdpSp 1 2 8, encLdpSp 3 4 24, encLdpSp 5 6 40, encLdpSp 7 8 56, encLdpSp 9 10 72,
   encLdpSp 11 12 88, encLdpSp 13 14 104,
   encLdrSp 15 120, encLdrSp 17 136, encLdrSp 18 144, encLdrSp 30 152,
   encLdrSp 16 160, encMsrNzcv 16,
   encLdrSp 0 0, encLdrSp 16 168, encAddSp 192, encBr 16]

def pointerWords (v : BitVec 64) : List Word := [v.extractLsb' 0 32, v.extractLsb' 32 32]

def emitIsland (dispatcher : Addr) (island original : WordPtr) : List Word :=
  emitCode island ++
    List.replicate (syscallGateIslandWords - 4 - (emitCode island).length) encNop ++
    pointerWords dispatcher ++ pointerWords (toAddr (original + 1#62))

theorem length_emitIsland (dispatcher : Addr) (island original : WordPtr) :
    (emitIsland dispatcher island original).length = syscallGateIslandWords := rfl

def gateBlock (dispatcher : Addr) (island original : WordPtr) : Block where
  base := island
  words := emitIsland dispatcher island original
  fits := by
    rw [length_emitIsland]
    decide

def saveRegisters : List GateInstr :=
  [.stp 0 1#5 31#5 0#5, .stp 2 3#5 31#5 2#5, .stp 4 5#5 31#5 4#5, .stp 6 7#5 31#5 6#5,
   .stp 8 9#5 31#5 8#5, .stp 10 11#5 31#5 10#5, .stp 12 13#5 31#5 12#5, .stp 14 15#5 31#5 14#5,
   .stp 16 17#5 31#5 16#5, .strImm 18 31#5 18#5, .strImm 19 31#5 30#5]

def save : List GateInstr :=
  [.subImm 192 31#5 31#5] ++ saveRegisters ++ [.other (.mrsNzcv 16#5), .strImm 20 31#5 16#5]

def passRecord : List GateInstr := [.strImm 21 31#5 16#5, .addImm 0 31#5 0#5]

def reloadRegisters : List GateInstr :=
  [.ldp 1 2#5 31#5 1#5, .ldp 3 4#5 31#5 3#5, .ldp 5 6#5 31#5 5#5, .ldp 7 8#5 31#5 7#5,
   .ldp 9 10#5 31#5 9#5, .ldp 11 12#5 31#5 11#5, .ldp 13 14#5 31#5 13#5, .ldrImm 15 31#5 15#5,
   .ldrImm 17 31#5 17#5, .ldrImm 18 31#5 18#5, .ldrImm 19 31#5 30#5, .ldrImm 20 31#5 16#5]

def reloadLast : List GateInstr := [.ldrImm 0 31#5 0#5, .ldrImm 21 31#5 16#5]

def reload : List GateInstr :=
  reloadRegisters ++ [.other (.msrNzcv 16#5)] ++ reloadLast ++ [.addImm 192 31#5 31#5]

def program : List GateInstr :=
  save ++ [.ldrLit 80 16#5] ++ passRecord ++ [.ldrLit 75 16#5, .blr 16#5] ++ reload ++ [.br 16#5]

variable (dispatcher : Addr) (island original : WordPtr)

theorem encLdrLiteral_offset (rt : Reg) {i j : Nat} :
    encLdrLiteral rt (island + BitVec.ofNat 62 i) (island + BitVec.ofNat 62 j) =
      encLdrLiteral rt (BitVec.ofNat 62 i) (BitVec.ofNat 62 j) := by
  rw [encLdrLiteral, encLdrLiteral, wordDistance, wordDistance, add_sub_add_left_eq_sub]

theorem emitCode_eq : emitCode island = emitCode 0 := by
  have hresume : encLdrLiteral 16 (island + 14#62) (resumeLiteral island) =
      encLdrLiteral 16 (0 + 14#62) (resumeLiteral 0) := by
    rw [resumeLiteral, resumeLiteral, encLdrLiteral_offset, encLdrLiteral_offset]
  have hdispatcher : encLdrLiteral 16 (island + 17#62) (dispatcherLiteral island) =
      encLdrLiteral 16 (0 + 17#62) (dispatcherLiteral 0) := by
    rw [dispatcherLiteral, dispatcherLiteral, encLdrLiteral_offset, encLdrLiteral_offset]
  rw [emitCode, emitCode, hresume, hdispatcher]

theorem decode_emitCode : (emitCode island).map decodeGate = program.map some := by
  rw [emitCode_eq]
  decide +kernel

theorem decodes_gateBlock : Decodes (gateBlock dispatcher island original) program := by
  intro k i hi
  have hword : ((emitCode island).map decodeGate)[k]? = some (some i) := by
    rw [decode_emitCode, getElem?_map, hi]
    rfl
  rw [getElem?_map] at hword
  obtain ⟨w, hw, hdecode⟩ := map_eq_some_iff.mp hword
  have hk : k < (emitCode island).length := (List.getElem?_eq_some_iff.mp hw).1
  have hfetch : (gateBlock dispatcher island original).words[k]? = some w := by
    change (emitIsland dispatcher island original)[k]? = some w
    rw [emitIsland, List.append_assoc, List.append_assoc, getElem?_append_left hk, hw]
  rw [hfetch, bind_some, hdecode]

theorem pointer_of_words (v : BitVec 64) : v.extractLsb' 32 32 ++ v.extractLsb' 0 32 = v := by
  apply eq_of_getLsbD_eq
  intro i hi
  rw [getLsbD_append, getLsbD_extractLsb', getLsbD_extractLsb']
  by_cases hlow : i < 32
  · simp [hlow]
  · simp [hlow, show i - 32 < 32 by omega, show 32 + (i - 32) = i by omega]

theorem resume_literal :
    literal (gateBlock dispatcher island original)
        ((gateBlock dispatcher island original).addr 14 + branchOffset 80#19) =
      some (toAddr (original + 1#62)) := by
  have haddr : (gateBlock dispatcher island original).addr 14 + branchOffset 80#19 =
      (gateBlock dispatcher island original).addr 94 := (Block.addr_add _ 14 80).symm
  rw [haddr, literal_addr rfl rfl, pointer_of_words]

theorem dispatcher_literal :
    literal (gateBlock dispatcher island original)
        ((gateBlock dispatcher island original).addr 17 + branchOffset 75#19) = some dispatcher := by
  have haddr : (gateBlock dispatcher island original).addr 17 + branchOffset 75#19 =
      (gateBlock dispatcher island original).addr 92 := (Block.addr_add _ 17 75).symm
  rw [haddr, literal_addr rfl rfl, pointer_of_words]

end Machgate.GateIsland

import Machgate.StackFrame

/-!
The instruction encoders of the loader, each with the instruction that the
processor decodes from the word it builds.
-/

namespace Machgate.Arm64Encoders

open ConditionFlags Instructions MachineState StackFrame BitVec Option

def encB (wordOffset : BitVec 32) : Word :=
  0x14000000#32 ||| (wordOffset &&& 0x03FFFFFF#32)

def encCbnzW (rt : Reg) (wordOffset : BitVec 32) : Word :=
  0x35000000#32 ||| (wordOffset &&& 0x7FFFF#32) <<< 5 ||| rt.setWidth 32

def encStrPre (rt : Reg) : Word :=
  0xF81F0FE0#32 ||| rt.setWidth 32

def encLdrPost (rt : Reg) : Word :=
  0xF84107E0#32 ||| rt.setWidth 32

def encMrsNzcv (rt : Reg) : Word :=
  0xD53B4200#32 ||| rt.setWidth 32

def encMsrNzcv (rt : Reg) : Word :=
  0xD51B4200#32 ||| rt.setWidth 32

def encLdxr (size : BitVec 2) (acquire : Bool) (rt rn : Reg) : Word :=
  (if acquire then 0x08407C00#32 ||| 1#32 <<< 15 else 0x08407C00#32) |||
    size.setWidth 32 <<< 30 ||| rn.setWidth 32 <<< 5 ||| rt.setWidth 32

def encStxr (size : BitVec 2) (release : Bool) (rs rt rn : Reg) : Word :=
  (if release then 0x08007C00#32 ||| 1#32 <<< 15 else 0x08007C00#32) |||
    size.setWidth 32 <<< 30 ||| rs.setWidth 32 <<< 16 ||| rn.setWidth 32 <<< 5 |||
    rt.setWidth 32

def encAdd (is64 : Bool) (rd rn rm : Reg) : Word :=
  (if is64 then 0x8B000000#32 else 0x0B000000#32) ||| rm.setWidth 32 <<< 16 |||
    rn.setWidth 32 <<< 5 ||| rd.setWidth 32

def encBic (is64 : Bool) (rd rn rm : Reg) : Word :=
  (if is64 then 0x8A200000#32 else 0x0A200000#32) ||| rm.setWidth 32 <<< 16 |||
    rn.setWidth 32 <<< 5 ||| rd.setWidth 32

def encEor (is64 : Bool) (rd rn rm : Reg) : Word :=
  (if is64 then 0xCA000000#32 else 0x4A000000#32) ||| rm.setWidth 32 <<< 16 |||
    rn.setWidth 32 <<< 5 ||| rd.setWidth 32

def encOrr (is64 : Bool) (rd rn rm : Reg) : Word :=
  (if is64 then 0xAA000000#32 else 0x2A000000#32) ||| rm.setWidth 32 <<< 16 |||
    rn.setWidth 32 <<< 5 ||| rd.setWidth 32

def encCmp (is64 : Bool) (rn rm : Reg) : Word :=
  (if is64 then 0xEB000000#32 else 0x6B000000#32) ||| rm.setWidth 32 <<< 16 |||
    rn.setWidth 32 <<< 5 ||| 31#32

def encCsel (is64 : Bool) (rd rn rm : Reg) (cond : BitVec 4) : Word :=
  (if is64 then 0x9A800000#32 else 0x1A800000#32) ||| rm.setWidth 32 <<< 16 |||
    cond.setWidth 32 <<< 12 ||| rn.setWidth 32 <<< 5 ||| rd.setWidth 32

def encMov (is64 : Bool) (rd rn : Reg) : Word :=
  encOrr is64 rd 31#5 rn

def encSxtb (rd rn : Reg) : Word :=
  0x13001C00#32 ||| rn.setWidth 32 <<< 5 ||| rd.setWidth 32

def encSxth (rd rn : Reg) : Word :=
  0x13003C00#32 ||| rn.setWidth 32 <<< 5 ||| rd.setWidth 32

def encNeonBic (vd vn vm : Reg) : Word :=
  0x4E601C00#32 ||| vm.setWidth 32 <<< 16 ||| vn.setWidth 32 <<< 5 ||| vd.setWidth 32

def encNeonEor (vd vn vm : Reg) : Word :=
  0x6E201C00#32 ||| vm.setWidth 32 <<< 16 ||| vn.setWidth 32 <<< 5 ||| vd.setWidth 32

def encStrQPre (vt : Reg) : Word :=
  0x3C9F0FE0#32 ||| vt.setWidth 32

def encLdrQPost (vt : Reg) : Word :=
  0x3CC107E0#32 ||| vt.setWidth 32

def clrexWord : Word :=
  0xD5033F5F#32

def bNeAhead3 : Word :=
  0x54000000#32 ||| 3#32 <<< 5 ||| condNe.setWidth 32

@[simp] theorem decode_encStrPre : ∀ rt, decode (encStrPre rt) = some (push rt) := by
  decide

@[simp] theorem decode_encLdrPost : ∀ rt, decode (encLdrPost rt) = some (pop rt) := by
  decide

@[simp] theorem decode_encMrsNzcv : ∀ rt, decode (encMrsNzcv rt) = some (.mrsNzcv rt) := by
  decide

@[simp] theorem decode_encMsrNzcv : ∀ rt, decode (encMsrNzcv rt) = some (.msrNzcv rt) := by
  decide

@[simp] theorem decode_encStrQPre :
    ∀ vt, decode (encStrQPre vt) = some (.strQPre minus16 stackPointer vt) := by
  decide

@[simp] theorem decode_encLdrQPost :
    ∀ vt, decode (encLdrQPost vt) = some (.ldrQPost plus16 stackPointer vt) := by
  decide

@[simp] theorem decode_clrexWord : decode clrexWord = some .clrex := by
  decide

@[simp] theorem decode_bNeAhead3 : decode bNeAhead3 = some (.bCond condNe 3#19) := by
  decide

theorem decode_registers (base : Word)
    (form : BitVec 2 → BitVec 4 → Bool → Bool → Reg → Reg → Reg → Instr) (rd rn rm : Reg) {i : Nat}
    {mask value : Word}
    (hbase : base &&& 0x001F03FF#32 = 0#32) (hsettles : Settles 0xFFE0FC00#32 base)
    (hrow : rowOf base = i)
    (hform : encodings[i]? = some ⟨mask, value, fun w =>
      form (w.extractLsb' 30 2) (w.extractLsb' 12 4) (w.getLsbD 15) (w.getLsbD 31)
        (fieldAt w 0) (fieldAt w 5) (fieldAt w 16)⟩) :
    decode (threeRegisters base rd rn rm) =
      some (form (base.extractLsb' 30 2) (base.extractLsb' 12 4) (base.getLsbD 15)
        (base.getLsbD 31) rd rn rm) := by
  obtain ⟨hfirst, hsecond, hthird⟩ := fields_threeRegisters rd rn rm hbase
  rw [decode_threeRegisters rd rn rm hbase hsettles hrow, hform, map_some]
  have hsize : (threeRegisters base rd rn rm).extractLsb' 30 2 = _ :=
    extractLsb'_threeRegisters base rd rn rm (by decide)
  have hcond : (threeRegisters base rd rn rm).extractLsb' 12 4 = _ :=
    extractLsb'_threeRegisters base rd rn rm (by decide)
  simp only [hsize, hcond, getLsbD_threeRegisters base rd rn rm (i := 15) (by decide),
    getLsbD_threeRegisters base rd rn rm (i := 31) (by decide), hfirst, hsecond, hthird]

variable (is64 : Bool)

@[simp] theorem decode_encAdd (rd rn rm : Reg) :
    decode (encAdd is64 rd rn rm) = some (.alu .add is64 rd rn rm) := by
  cases is64 <;>
    exact decode_registers _ (fun _ _ _ => .alu .add) rd rn rm (by decide) (by decide) rfl rfl

@[simp] theorem decode_encBic (rd rn rm : Reg) :
    decode (encBic is64 rd rn rm) = some (.alu .bic is64 rd rn rm) := by
  cases is64 <;>
    exact decode_registers _ (fun _ _ _ => .alu .bic) rd rn rm (by decide) (by decide) rfl rfl

@[simp] theorem decode_encEor (rd rn rm : Reg) :
    decode (encEor is64 rd rn rm) = some (.alu .eor is64 rd rn rm) := by
  cases is64 <;>
    exact decode_registers _ (fun _ _ _ => .alu .eor) rd rn rm (by decide) (by decide) rfl rfl

@[simp] theorem decode_encOrr (rd rn rm : Reg) :
    decode (encOrr is64 rd rn rm) = some (.alu .orr is64 rd rn rm) := by
  cases is64 <;>
    exact decode_registers _ (fun _ _ _ => .alu .orr) rd rn rm (by decide) (by decide) rfl rfl

@[simp] theorem decode_encMov (rd rn : Reg) :
    decode (encMov is64 rd rn) = some (.alu .orr is64 rd 31#5 rn) :=
  decode_encOrr is64 rd 31#5 rn

@[simp] theorem decode_encCmp (rn rm : Reg) :
    decode (encCmp is64 rn rm) = some (.subs is64 31#5 rn rm) := by
  cases is64 <;>
    exact decode_registers _ (fun _ _ _ => .subs) 31#5 rn rm (by decide) (by decide) rfl rfl

@[simp] theorem decode_encNeonBic (vd vn vm : Reg) :
    decode (encNeonBic vd vn vm) = some (.vbic vd vn vm) :=
  decode_registers 0x4E601C00#32 (fun _ _ _ _ => .vbic) vd vn vm (by decide) (by decide) rfl rfl

@[simp] theorem decode_encNeonEor (vd vn vm : Reg) :
    decode (encNeonEor vd vn vm) = some (.veor vd vn vm) :=
  decode_registers 0x6E201C00#32 (fun _ _ _ _ => .veor) vd vn vm (by decide) (by decide) rfl rfl

def exclusiveBase (load : Bool) (size : BitVec 2) (ordered : Bool) : Word :=
  (if load then (if ordered then 0x08407C00#32 ||| 1#32 <<< 15 else 0x08407C00#32)
    else if ordered then 0x08007C00#32 ||| 1#32 <<< 15 else 0x08007C00#32) |||
    size.setWidth 32 <<< 30

theorem exclusiveBase_spec : ∀ load size ordered,
    exclusiveBase load size ordered &&& 0x001F03FF#32 = 0#32 ∧
      Settles 0xFFE0FC00#32 (exclusiveBase load size ordered) ∧
      rowOf (exclusiveBase load size ordered) = (if load then 9 else 10) ∧
      (exclusiveBase load size ordered).extractLsb' 30 2 = size ∧
      (exclusiveBase load size ordered).getLsbD 15 = ordered := by
  decide

@[simp] theorem decode_encStxr (size : BitVec 2) (release : Bool) (rs rt rn : Reg) :
    decode (encStxr size release rs rt rn) = some (.stxr size release rs rt rn) := by
  obtain ⟨hclear, hsettles, hrow, hsize, hordered⟩ := exclusiveBase_spec false size release
  have hdecode := decode_registers _
    (fun size _ ordered _ rt rn rs => .stxr size ordered rs rt rn) rt rn rs hclear hsettles hrow rfl
  rwa [hsize, hordered] at hdecode

@[simp] theorem decode_encLdxr (size : BitVec 2) (acquire : Bool) (rt rn : Reg) :
    decode (encLdxr size acquire rt rn) = some (.ldxr size acquire rt rn) := by
  have hword : encLdxr size acquire rt rn =
      threeRegisters (exclusiveBase true size acquire) rt rn 0#5 := by
    rw [threeRegisters, show (0#5 : Reg).setWidth 32 <<< 16 = 0#32 by decide, or_zero]
    rfl
  obtain ⟨hclear, hsettles, hrow, hsize, hordered⟩ := exclusiveBase_spec true size acquire
  have hdecode := decode_registers _
    (fun size _ ordered _ rt rn _ => .ldxr size ordered rt rn) rt rn 0#5 hclear hsettles hrow rfl
  rwa [← hword, hsize, hordered] at hdecode

def cselBase (is64 : Bool) (cond : BitVec 4) : Word :=
  (if is64 then 0x9A800000#32 else 0x1A800000#32) ||| cond.setWidth 32 <<< 12

theorem cselBase_spec : ∀ is64 cond, cselBase is64 cond &&& 0x001F03FF#32 = 0#32 ∧
    Settles 0xFFE0FC00#32 (cselBase is64 cond) ∧ rowOf (cselBase is64 cond) = 17 ∧
    (cselBase is64 cond).extractLsb' 12 4 = cond ∧ (cselBase is64 cond).getLsbD 31 = is64 := by
  decide

@[simp] theorem decode_encCsel (rd rn rm : Reg) (cond : BitVec 4) :
    decode (encCsel is64 rd rn rm cond) = some (.csel is64 rd rn rm cond) := by
  have hword : encCsel is64 rd rn rm cond = threeRegisters (cselBase is64 cond) rd rn rm := by
    rw [encCsel, BitVec.or_assoc _ (rm.setWidth 32 <<< 16),
      BitVec.or_comm (rm.setWidth 32 <<< 16), ← BitVec.or_assoc]
    rfl
  obtain ⟨hclear, hsettles, hrow, hcond, hwide⟩ := cselBase_spec is64 cond
  have hdecode := decode_registers _ (fun _ cond _ sf rd rn rm => .csel sf rd rn rm cond) rd rn rm
    hclear hsettles hrow rfl
  rwa [← hword, hcond, hwide] at hdecode

theorem sxt_and {base : Word} (rd rn : Reg) :
    threeRegisters base rd rn 0#5 &&& 0xFFFFFC00#32 = base &&& 0xFFFFFC00#32 := by
  have h5 : ∀ r : Reg, r.setWidth 32 <<< 5 &&& 0xFFFFFC00#32 = 0#32 := by decide
  have h0 : ∀ r : Reg, r.setWidth 32 &&& 0xFFFFFC00#32 = 0#32 := by decide
  have h16 : (0#5 : Reg).setWidth 32 <<< 16 &&& 0xFFFFFC00#32 = 0#32 := by decide
  rw [threeRegisters, and_or_distrib_right, and_or_distrib_right,
    and_or_distrib_right, h5, h0, h16, or_zero, or_zero, or_zero]

theorem decode_sxt (base : Word) (form : Reg → Reg → Instr) (rd rn : Reg) {i : Nat}
    {mask value : Word}
    (hbase : base &&& 0x001F03FF#32 = 0#32) (hopcode : base &&& 0xFFFFFC00#32 = base)
    (hsettles : Settles 0xFFFFFC00#32 base) (hrow : rowOf base = i)
    (hform : encodings[i]? = some ⟨mask, value, fun w => form (fieldAt w 0) (fieldAt w 5)⟩) :
    decode (base ||| rn.setWidth 32 <<< 5 ||| rd.setWidth 32) = some (form rd rn) := by
  have hword : base ||| rn.setWidth 32 <<< 5 ||| rd.setWidth 32 =
      threeRegisters base rd rn 0#5 := by
    rw [threeRegisters, show (0#5 : Reg).setWidth 32 <<< 16 = 0#32 by decide, or_zero]
  obtain ⟨hfirst, hsecond, -⟩ := fields_threeRegisters rd rn 0#5 hbase
  rw [hword, decode_eq_row ((sxt_and rd rn).trans hopcode) hsettles hrow, hform, map_some]
  simp only [hfirst, hsecond]

@[simp] theorem decode_encSxtb (rd rn : Reg) : decode (encSxtb rd rn) = some (.sxtbW rd rn) :=
  decode_sxt 0x13001C00#32 .sxtbW rd rn (by decide) (by decide) (by decide) rfl rfl

@[simp] theorem decode_encSxth (rd rn : Reg) : decode (encSxth rd rn) = some (.sxthW rd rn) :=
  decode_sxt 0x13003C00#32 .sxthW rd rn (by decide) (by decide) (by decide) rfl rfl

theorem branchWord_and {base : Word} (hbase : base &&& 0xFC000000#32 = base)
    (wordOffset : BitVec 32) :
    (base ||| (wordOffset &&& 0x03FFFFFF#32)) &&& 0xFC000000#32 = base := by
  rw [and_or_distrib_right, BitVec.and_assoc,
    show (0x03FFFFFF#32 : Word) &&& 0xFC000000#32 = 0#32 by decide, and_zero, hbase, or_zero]

@[simp] theorem decode_encB (wordOffset : BitVec 32) :
    decode (encB wordOffset) = some (.b (wordOffset.setWidth 26)) := by
  have hk : encB wordOffset &&& 0xFC000000#32 = 0x14000000#32 :=
    branchWord_and (by decide) wordOffset
  have himm : (encB wordOffset).extractLsb' 0 26 = wordOffset.setWidth 26 := by
    rw [encB, extractLsb'_or, extractLsb'_and,
      show (0x03FFFFFF#32 : Word).extractLsb' 0 26 = allOnes 26 by decide,
      show (0x14000000#32 : Word).extractLsb' 0 26 = 0#26 by decide, and_allOnes, zero_or]
    rfl
  rw [decode_eq_row hk (by decide) (i := 0) rfl]
  change some (Instr.b _) = _
  rw [himm]

@[simp] theorem decode_encCbnzW (rt : Reg) (wordOffset : BitVec 32) :
    decode (encCbnzW rt wordOffset) = some (.cbnzW rt (wordOffset.setWidth 19)) := by
  have hword : encCbnzW rt wordOffset =
      0x35000000#32 ||| (wordOffset <<< 5 &&& 0xFFFFE0#32) ||| rt.setWidth 32 := by
    rw [encCbnzW, shiftLeft_and_distrib]
    rfl
  have hregister : ∀ r : Reg, r.setWidth 32 &&& 0xFF000000#32 = 0#32 ∧
      (r.setWidth 32).extractLsb' 5 19 = 0#19 ∧ (r.setWidth 32).extractLsb' 0 5 = r := by
    decide
  obtain ⟨hmask, hhigh, hlow⟩ := hregister rt
  have hk : encCbnzW rt wordOffset &&& 0xFF000000#32 = 0x35000000#32 := by
    rw [hword, and_or_distrib_right, and_or_distrib_right, BitVec.and_assoc,
      show (0xFFFFE0#32 : Word) &&& 0xFF000000#32 = 0#32 by decide, and_zero, hmask]
    decide
  have himm : (encCbnzW rt wordOffset).extractLsb' 5 19 = wordOffset.setWidth 19 := by
    rw [hword, extractLsb'_or, extractLsb'_or, extractLsb'_and,
      show (0xFFFFE0#32 : Word).extractLsb' 5 19 = allOnes 19 by decide,
      show (0x35000000#32 : Word).extractLsb' 5 19 = 0#19 by decide, hhigh, and_allOnes,
      zero_or, or_zero]
    apply eq_of_getLsbD_eq
    intro i hi
    rw [getLsbD_extractLsb', getLsbD_shiftLeft, getLsbD_setWidth, Nat.add_sub_cancel_left]
    simp only [hi, show 5 + i < 32 by omega, show ¬ 5 + i < 5 by omega, decide_true,
      decide_false, Bool.not_false, Bool.true_and]
  have hreg : fieldAt (encCbnzW rt wordOffset) 0 = rt := by
    rw [fieldAt, hword, extractLsb'_or, extractLsb'_or, extractLsb'_and,
      show (0xFFFFE0#32 : Word).extractLsb' 0 5 = 0#5 by decide,
      show (0x35000000#32 : Word).extractLsb' 0 5 = 0#5 by decide, hlow, and_zero, zero_or, zero_or]
  rw [decode_eq_row hk (by decide) (i := 2) rfl]
  change some (Instr.cbnzW _ _) = _
  rw [himm, hreg]

end Machgate.Arm64Encoders

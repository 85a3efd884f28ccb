import PollyInstrew.Support.ByteMemory

/-!
# Messages between client and server

Message ids, message headers and the two configuration records, as
`instrew-protocol.inc` gives them to both sides.
-/

namespace PollyInstrew.Shared

open PollyInstrew.ByteMemory

/-! ## Message headers -/

/-- `INSTREW_MESSAGE_ID`. -/
inductive MsgId where
  | unknown
  | cExit
  | cTranslate
  | sMemreq
  | cMembuf
  | sObject
  | cConfig1
  | cConfig2
  | sConfigStatus
  | cInit
  | sInit
  deriving DecidableEq, Repr

def MsgId.code : MsgId → BitVec 32
  | .unknown => 0
  | .cExit => 1
  | .cTranslate => 2
  | .sMemreq => 3
  | .cMembuf => 4
  | .sObject => 5
  | .cConfig1 => 6
  | .cConfig2 => 7
  | .sConfigStatus => 8
  | .cInit => 9
  | .sInit => 10

/-- `TranslatorMsgHdr` of the client, `Msg::Hdr` of the server; `sz` is signed. -/
structure Hdr where
  id : BitVec 32
  sz : BitVec 32
  deriving DecidableEq, Repr

/-- A header as it is sent. -/
def Hdr.bytes (h : Hdr) : List Byte := leBytes 4 h.id.toNat ++ leBytes 4 h.sz.toNat

/-- A header as it is received. -/
def Hdr.parse (bytes : List Byte) : Hdr :=
  ⟨BitVec.ofNat 32 (leNat (bytes.take 4)), BitVec.ofNat 32 (leNat (bytes.drop 4))⟩

/-- The header of a message with `size` bytes of content. -/
def Hdr.of (id : MsgId) (size : ℕ) : Hdr := ⟨id.code, BitVec.ofNat 32 size⟩

@[simp] theorem Hdr.length_bytes (h : Hdr) : h.bytes.length = 8 := by
  simp [Hdr.bytes]

theorem Hdr.bytes_ne_nil (h : Hdr) : h.bytes ≠ [] := by
  intro hnil
  have := h.length_bytes
  rw [hnil] at this
  exact absurd this (by decide)

@[simp] theorem Hdr.parse_bytes (h : Hdr) : Hdr.parse h.bytes = h := by
  have hid : BitVec.ofNat 32 (leNat (leBytes 4 h.id.toNat)) = h.id :=
    ofNat_leNat_leBytes (k := 4) h.id
  have hsz : BitVec.ofNat 32 (leNat (leBytes 4 h.sz.toNat)) = h.sz :=
    ofNat_leNat_leBytes (k := 4) h.sz
  rw [Hdr.parse, Hdr.bytes, List.take_left' (length_leBytes 4 _),
    List.drop_left' (length_leBytes 4 _), hid, hsz]

/-- Sizes up to `INT32_MAX` survive the header. -/
theorem Hdr.toNat_sz_of {id : MsgId} {size : ℕ} (h : size < 2 ^ 31) :
    (Hdr.of id size).sz.toNat = size := by
  rw [Hdr.of, BitVec.toNat_ofNat]
  omega

theorem Hdr.toInt_sz_of {id : MsgId} {size : ℕ} (h : size < 2 ^ 31) :
    (Hdr.of id size).sz.toInt = size := by
  rw [BitVec.toInt_eq_toNat_of_lt (by rw [Hdr.toNat_sz_of h]; omega), Hdr.toNat_sz_of h]

/-! ## Configuration records -/

/-- `INSTREW_SERVER_CONF`: `TranslatorServerConfig` and `IWServerConfig`. -/
structure IWServerConfig where
  tscGuestArch : BitVec 32
  tscHostArch : BitVec 32
  tscHostCpuFeatures : BitVec 32
  tscServerMode : BitVec 32
  tscStackAlignment : BitVec 32
  deriving DecidableEq, Repr

/-- `INSTREW_CLIENT_CONF`: `TranslatorConfig` and `IWClientConfig`. -/
structure IWClientConfig where
  tcCallconv : BitVec 32
  tcProfile : BitVec 32
  tcPerf : BitVec 32
  tcPrintTrace : BitVec 32
  tcPrintRegs : BitVec 32
  deriving DecidableEq, Repr

def IWServerConfig.bytes (c : IWServerConfig) : List Byte :=
  leBytes 4 c.tscGuestArch.toNat ++ leBytes 4 c.tscHostArch.toNat ++
    leBytes 4 c.tscHostCpuFeatures.toNat ++ leBytes 4 c.tscServerMode.toNat ++
    leBytes 4 c.tscStackAlignment.toNat

def IWClientConfig.bytes (c : IWClientConfig) : List Byte :=
  leBytes 4 c.tcCallconv.toNat ++ leBytes 4 c.tcProfile.toNat ++ leBytes 4 c.tcPerf.toNat ++
    leBytes 4 c.tcPrintTrace.toNat ++ leBytes 4 c.tcPrintRegs.toNat

/-- `tsc_server_mode` of a received `IWServerConfig`. -/
def serverMode (bytes : List Byte) : BitVec 32 :=
  BitVec.ofNat 32 (leNat ((bytes.drop 12).take 4))

@[simp] theorem IWServerConfig.length_bytes (c : IWServerConfig) : c.bytes.length = 20 := by
  simp [IWServerConfig.bytes]

@[simp] theorem IWClientConfig.length_bytes (c : IWClientConfig) : c.bytes.length = 20 := by
  simp [IWClientConfig.bytes]

theorem serverMode_bytes (c : IWServerConfig) : serverMode c.bytes = c.tscServerMode := by
  have hfield : (c.bytes.drop 12).take 4 = leBytes 4 c.tscServerMode.toNat := by
    simp [IWServerConfig.bytes, leBytes]
  rw [serverMode, hfield]
  exact ofNat_leNat_leBytes (k := 4) c.tscServerMode

end PollyInstrew.Shared

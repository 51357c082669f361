import Pastoral.Fs.Ramfs

/-!
# Unpacking the archive

`initramfs.c`: the boot loader leaves an archive in memory, and every header of it becomes a handle,
an asset and a node.

## Main definitions

* `initramfs`: the loop over the headers
-/

open BitVec List Padded

namespace Pastoral

/-! ## Fields -/

def cString (bytes : List (BitVec 8)) (i : ℕ) : Option Name :=
  if 0#8 ∈ bytes.drop i then some ((bytes.drop i).takeWhile (· ≠ 0#8)) else none

def octalToDecimal (str : Name) : BitVec 64 :=
  str.foldl (fun ret c => ret * 8#64 + (c.signExtend 64 - 0x30#64)) 0#64

def ustarMagic : Name := [0x75#8, 0x73#8, 0x74#8, 0x61#8, 0x72#8]

def magicMatches (bytes : List (BitVec 8)) (header : ℕ) : Option Bool :=
  if header + 262 ≤ bytes.length then some (slice bytes (header + 257) 5 = ustarMagic) else none

abbrev ustarRegtype : BitVec 8 := 0x30#8
abbrev ustarSymtype : BitVec 8 := 0x32#8
abbrev ustarDirtype : BitVec 8 := 0x35#8

def ustarMode (typeflag : BitVec 8) : BitVec 32 :=
  if typeflag = ustarRegtype then sIfreg
  else if typeflag = ustarDirtype then sIfdir
  else if typeflag = ustarSymtype then sIflnk
  else 0#32

structure UstarHeader where
  name : Name
  mode : Name
  size : Name
  typeflag : BitVec 8
  linkname : Option Name
  deriving DecidableEq, Repr

def ustarHeader (bytes : List (BitVec 8)) (header : ℕ) : Option UstarHeader :=
  (cString bytes header).bind fun name =>
    (cString bytes (header + 100)).bind fun mode =>
      (cString bytes (header + 124)).bind fun size =>
        bytes[header + 156]?.map fun typeflag =>
          ⟨name, mode, size, typeflag, cString bytes (header + 157)⟩

def UstarHeader.asset (h : UstarHeader) (inode : BitVec 64) : Asset :=
  ⟨(octalToDecimal h.mode).setWidth 32 ||| ustarMode h.typeflag, inode,
    (octalToDecimal h.size).toInt, true⟩

def VfsState.setSymlink (s : VfsState) (node : ℕ) (linkname : Option Name) : VfsState :=
  { s with
    nodes := Function.update s.nodes node { s.nodes node with symlink := linkname } }

/-! ## The loop -/

def unpackEntry (links block header : ℕ) (h : UstarHeader) (s : RamfsState) : Option RamfsState :=
  (s.addHandle (some ⟨block, header + 512⟩)).bind fun s' =>
    (vfsCreateNodeDeep links vfsRoot s.vfs.assetCnt (some ramfsFilesystem) h.name
      (s.vfs.allocAsset (h.asset s.inodeCnt))).map fun r =>
        { s' with
          vfs := if sIslnk (r.2.mode r.1) then r.2.setSymlink r.1 h.linkname else r.2 }

def nextHeader (header : ℕ) (size : ℤ) : Option ℕ :=
  if size + 511 < 2 ^ 63 then
    some (((header : ℤ) + 512 + (size + 511).tdiv 512 * 512) % 2 ^ 64).toNat
  else none

def unpack (links block address : ℕ) : ℕ → ℕ → RamfsState → Option RamfsState
  | 0, _, _ => none
  | entries + 1, header, s =>
    if header < address then none
    else
      (magicMatches (s.heap.blocks block).bytes (header - address)).bind fun magic =>
        if magic then
          (ustarHeader (s.heap.blocks block).bytes (header - address)).bind fun h =>
            (unpackEntry links block (header - address) h s).bind fun s' =>
              (nextHeader header (h.asset s.inodeCnt).stSize).bind fun next =>
                if next ≥ wrap (address + (s.heap.blocks block).bytes.length) then some s'
                else unpack links block address entries next s'
        else some s

structure LimineFile where
  address : ℕ
  block : ℕ
  cmdline : Name
  deriving DecidableEq, Repr

def initramfsCmdline : Name :=
  [0x69#8, 0x6e#8, 0x69#8, 0x74#8, 0x72#8, 0x61#8, 0x6d#8, 0x66#8, 0x73#8]

def initramfs (links entries : ℕ) (response : Option (List LimineFile)) (s : RamfsState) :
    Option (ℤ × RamfsState) :=
  match response.bind fun modules => modules.find? fun m => m.cmdline = initramfsCmdline with
  | none => some (-1, s)
  | some m => (unpack links m.block m.address entries m.address s).map fun s' => (0, s')

/-! ## What is read from a field -/

def IsOctal (str : Name) : Prop := ∀ c ∈ str, 0x30 ≤ c.toNat ∧ c.toNat ≤ 0x37
  deriving Decidable

def octalValue (str : Name) : ℕ := str.foldl (fun r c => r * 8 + (c.toNat - 0x30)) 0

section Fields

variable {str : Name} {bytes : List (BitVec 8)} {i : ℕ}

theorem cString_of_prefix (h : str ++ [0#8] <+: bytes.drop i) (hzero : 0#8 ∉ str) :
    cString bytes i = some str := by
  obtain ⟨rest, hrest⟩ := h
  have hmem : 0#8 ∈ bytes.drop i := by
    rw [← hrest]
    simp
  have htake : (bytes.drop i).takeWhile (· ≠ 0#8) = str := by
    rw [← hrest, List.append_assoc, takeWhile_append_of_pos]
    · simp
    · intro c hc
      exact decide_eq_true fun heq => hzero (heq ▸ hc)
  rw [cString, if_pos hmem, htake]

theorem prefix_drop_append {done header rest field : List (BitVec 8)}
    (h : field <+: header.drop i) : field <+: (done ++ (header ++ rest)).drop (done.length + i) := by
  rw [drop_append, drop_eq_nil_of_le (Nat.le_add_right _ _), Nat.add_sub_cancel_left]
  exact h.trans ((prefix_append header rest).drop i)

theorem zero_notMem_of_isOctal (h : IsOctal str) : 0#8 ∉ str := by
  intro hmem
  exact absurd (h _ hmem).1 (by decide)

theorem octalValue_snoc (str : Name) (c : BitVec 8) :
    octalValue (str ++ [c]) = octalValue str * 8 + (c.toNat - 0x30) := by
  rw [octalValue, foldl_append]
  rfl

theorem octalToDecimal_snoc (str : Name) (c : BitVec 8) :
    octalToDecimal (str ++ [c]) = octalToDecimal str * 8#64 + (c.signExtend 64 - 0x30#64) := by
  rw [octalToDecimal, foldl_append]
  rfl

theorem digit_eq : ∀ c : BitVec 8, 0x30 ≤ c.toNat → c.toNat ≤ 0x37 →
    c.signExtend 64 - 0x30#64 = BitVec.ofNat 64 (c.toNat - 0x30) := by
  decide +kernel

theorem octalToDecimal_eq (h : IsOctal str) :
    octalToDecimal str = BitVec.ofNat 64 (octalValue str) := by
  induction str using reverseRecOn with
  | nil => rfl
  | append_singleton str c ih =>
    obtain ⟨hlow, hhigh⟩ := h c (by simp)
    rw [octalToDecimal_snoc, octalValue_snoc, ih fun d hd => h d (mem_append_left _ hd),
      digit_eq c hlow hhigh, ofNat_add, ofNat_mul]

theorem octalValue_lt (h : IsOctal str) : octalValue str < 8 ^ str.length := by
  induction str using reverseRecOn with
  | nil => decide
  | append_singleton str c ih =>
    obtain ⟨hlow, hhigh⟩ := h c (by simp)
    have hlt := ih fun d hd => h d (mem_append_left _ hd)
    rw [octalValue_snoc, length_append, length_singleton]
    omega

theorem octalToDecimal_toInt (h : IsOctal str) (hlen : str.length ≤ 11) :
    (octalToDecimal str).toInt = octalValue str := by
  have hlt := lt_of_lt_of_le (octalValue_lt h) (Nat.pow_le_pow_right (by decide) hlen)
  have hnat : (BitVec.ofNat 64 (octalValue str)).toNat = octalValue str := by
    rw [toNat_ofNat, Nat.mod_eq_of_lt (by omega)]
  rw [octalToDecimal_eq h, toInt_eq_toNat_of_lt (by omega), hnat]

theorem nextHeader_eq {header size pad : ℕ} (hpad : pad < 512) (hdvd : 512 ∣ size + pad)
    (hlt : header + 512 + size + pad < 2 ^ 64) (hsmall : size < 2 ^ 33) :
    nextHeader header size = some (header + 512 + size + pad) := by
  have hdiv : ((size : ℤ) + 511).tdiv 512 * 512 = (size + pad : ℕ) := by
    rw [Int.tdiv_eq_ediv_of_nonneg (by omega)]
    omega
  rw [nextHeader, if_pos (by omega), hdiv]
  congr 1
  omega

end Fields

end Pastoral

import Lxos.Fs.Format

/-! The boot loader of `start.c`. Memory is the function of its addresses, the disk that of
its sectors; addresses wrap around. -/
namespace Lxos.Boot
open Lxos.Bytes Lxos.Fs

abbrev sectsize : Nat := 512

/-- `ELF_MAGIC`. -/
def elfMagic : BitVec 32 := 1179403647

/-- Where the first bytes of the image go. -/
abbrev elf : Nat := 65536

/-- `n` bytes from `dst` on, in order: what `insl` and `stosb` do. -/
def store (data : Nat → Byte) (dst : Nat) : Nat → Buffer → Buffer
  | 0, m => m
  | n+1, m => Function.update (store data dst n m) (u32 (dst + n)) (data n)

/-- The sector number that reaches the drive in four bytes; the highest has mode bits too. -/
def lba (offset : Nat) : Nat :=
  offset % 256 + offset / 256 % 256 * 256 + offset / 65536 % 256 * 65536 + (offset / 16777216 ||| 224) % 16 * 16777216

def readsect (disk : Nat → Buffer) (m : Buffer) (dst offset : Nat) : Buffer :=
  store (disk (lba offset)) dst sectsize m

def readsegLoop (disk : Nat → Buffer) (epa : Nat) : Nat → Nat → Nat → Buffer → Option Buffer
  | 0, _, _, _ => none
  | fuel+1, pa, offset, m =>
    if pa < epa then readsegLoop disk epa fuel (u32 (pa + sectsize)) (u32 (offset + 1)) (readsect disk m pa offset)
    else some m

/-- With more rounds than there are sectors in memory the loop never ends. -/
def readseg (disk : Nat → Buffer) (m : Buffer) (pa count offset : Nat) : Option Buffer :=
  let epa := u32 (pa + count)
  let pa := u32 (pa + 4294967296 - offset % sectsize)
  let offset := offset / sectsize + 1
  readsegLoop disk epa 8388609 pa offset m

/-- The body of the loop over the program headers; `ph` points to one in memory. -/
def loadSegment (disk : Nat → Buffer) (m : Buffer) (ph : Nat) : Option Buffer :=
  let pa := (le32 m (ph + 12)).toNat
  (readseg disk m pa (le32 m (ph + 16)).toNat (le32 m (ph + 4)).toNat).map fun m =>
    let filesz := (le32 m (ph + 16)).toNat
    let memsz := (le32 m (ph + 20)).toNat
    if memsz > filesz then store (fun _ => 0) (u32 (pa + filesz)) (memsz - filesz) m else m

/-- The image, from sector 1 on. -/
def image (disk : Nat → Buffer) : Buffer := fun i => disk (i / 512 + 1) (i % 512)

/-- Whole sectors are read for `count` bytes from `offset`. -/
def sectors (count offset : Nat) : Nat := (count + offset % 512 + 511) / 512

section reading
variable {disk : Nat → Buffer} {m : Buffer} {pa offset count n : Nat}

end reading

end Lxos.Boot

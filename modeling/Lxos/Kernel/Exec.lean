import Lxos.Kernel.File

/-! `exec`: a program is loaded into a new address space, which replaces the old
one when nothing can fail any more. -/
namespace Lxos.Kernel
open Lxos.Bytes Lxos.Fs

abbrev elfMagic : BitVec 32 := 1179403647

/-- `struct elfhdr`. -/
structure Elfhdr where
  magic : BitVec 32
  entry : Nat
  phoff : Nat
  phnum : Nat

def Elfhdr.decode (b : Buffer) : Elfhdr :=
  ⟨le32 b 0,(le32 b 24).toNat,(le32 b 28).toNat,(le16 b 44).toNat⟩

/-- `struct proghdr`. -/
structure Proghdr where
  type : Nat
  off : Nat
  vaddr : Nat
  filesz : Nat
  memsz : Nat

def Proghdr.decode (b : Buffer) : Proghdr :=
  ⟨(le32 b 0).toNat,(le32 b 4).toNat,(le32 b 8).toNat,(le32 b 16).toNat,(le32 b 20).toNat⟩

abbrev elfhdrSize : Nat := 52
abbrev proghdrSize : Nat := 32

/-- The loop of `loaduvm`, at byte `i` of the segment. -/
def loaduvmLoop (pgdir : Page) (addr : Nat) (ip : Slot) (offset sz : Nat) :
    Nat → FsState → Vm → Nat → Except Fault (Bool × FsState × Vm)
  | 0, _, _, _ => .error .hang
  | fuel+1, fs, m, i =>
    if i < sz then
      match (walkpgdir m pgdir (u32 (addr + i)) false).1 with
      | none => .error .nullEntry
      | some (pgtab,j) =>
        let page := (m.table pgtab j).page
        let n := min (sz - i) pgsize
        let (r,dst,fs) := readi fs ip (m.frame page) (u32 (offset + i)) n
        let m := m.setFrame page dst
        if r ≠ n then .ok (false,fs,m)
        else loaduvmLoop pgdir addr ip offset sz fuel fs m (u32 (i + pgsize))
    else .ok (true,fs,m)

def loaduvm (fs : FsState) (m : Vm) (pgdir : Page) (addr : Nat) (ip : Slot) (offset sz : Nat) :
    Except Fault (Bool × FsState × Vm) :=
  loaduvmLoop pgdir addr ip offset sz 1048577 fs m 0

/-- The loop over the program headers: the size of the program, or none on failure. -/
def loadProgram (pgdir : Page) (ip : Slot) :
    Nat → FsState → Vm → Nat → Nat → Except Fault (Option Nat × FsState × Vm)
  | 0, fs, m, sz, _ => .ok (some sz,fs,m)
  | phnum+1, fs, m, sz, off =>
    let (r,b,fs) := readi fs ip fs.stack off proghdrSize
    let ph := Proghdr.decode b
    if r ≠ proghdrSize then .ok (none,fs,m)
    else if ph.type ≠ 1 then loadProgram pgdir ip phnum fs m sz (u32 (off + proghdrSize))
    else if ph.memsz < ph.filesz then .ok (none,fs,m)
    else if u32 (ph.vaddr + ph.memsz) < ph.vaddr then .ok (none,fs,m)
    else
      match allocuvm m pgdir sz (u32 (ph.vaddr + ph.memsz)) with
      | .error e => .error e
      | .ok (sz,m) =>
        if sz = 0 then .ok (none,fs,m)
        else if ph.vaddr % pgsize ≠ 0 then .ok (none,fs,m)
        else
          match loaduvm fs m pgdir ph.vaddr ip ph.off ph.filesz with
          | .error e => .error e
          | .ok (false,fs,m) => .ok (none,fs,m)
          | .ok (true,fs,m) => loadProgram pgdir ip phnum fs m sz (u32 (off + proghdrSize))

/-- The loop that pushes the arguments: the stack pointer and the pointers
pushed, or none on failure. An argument is its address and length in the memory
of the calling process, which is still the current one. -/
def pushArgs (pgdir : Page) :
    List (Nat × Nat) → State → Nat → List Nat → Except Fault (Option (Nat × List Nat) × State)
  | [], k, sp, pushed => .ok (some (sp,pushed),k)
  | (addr,len) :: args, k, sp, pushed =>
    if pushed.length ≥ maxarg then .ok (none,k)
    else
      match touch k addr (len + 1) with
      | .error e => .error e
      | .ok k =>
        let sp := u32 (sp + 4294967296 - u32 (len + 1)) / 4 * 4
        match copyout k.vm pgdir sp (userMem k addr) (len + 1) with
        | .error e => .error e
        | .ok (false,m) => .ok (none,{ k with vm := m })
        | .ok (true,m) => pushArgs pgdir args { k with vm := m } sp (pushed ++ [sp])

/-- The words of `ustack`. -/
def ustack (sp : Nat) (pushed : List Nat) : List Nat :=
  [4294967295,pushed.length,u32 (sp + 4294967296 - 4 * (pushed.length + 1))] ++ pushed ++ [0]

/-- The part of the path after its last slash. -/
def lastElem (path : List Byte) : List Byte := (path.reverse.takeWhile (· != slash)).reverse

def safestrcpy (s : Buffer) (t : List Byte) (n : Nat) : Buffer :=
  let len := min t.length (n - 1)
  blit (blit s 0 len (bytes t)) len 1 zeros

/-- `bad` with the inode still locked. -/
def execBad (k : State) (ip : Slot) : Int × State := (-1,{ k with fs := iunlockput k.fs ip })

/-- `bad` with an address space to free; the inode is released unless it already was. -/
def execFree (k : State) (pgdir : Page) (ip : Option Slot) : Except Fault (Int × State) :=
  match freevm k.vm pgdir with
  | .error e => .error e
  | .ok m =>
    let k := { k with vm := m }
    match ip with
    | some ip => .ok (execBad k ip)
    | none => .ok (-1,k)

/-- From the words below the arguments on. -/
def execStack (k : State) (pgdir : Page) (sz entry : Nat) (path : Nat × Nat) (sp : Nat) (pushed : List Nat) :
    Except Fault (Int × State) :=
  let words := ustack sp pushed
  let sp := u32 (sp + 4294967296 - 4 * words.length)
  match copyout k.vm pgdir sp (Bytes.words fun i => BitVec.ofNat 32 (words.getD i 0)) (4 * words.length) with
  | .error e => .error e
  | .ok (false,m) => execFree { k with vm := m } pgdir none
  | .ok (true,m) =>
    match touch { k with vm := m } path.1 (path.2 + 1) with
    | .error e => .error e
    | .ok k =>
      let name := safestrcpy k.proc.name (lastElem (userString k path.1 path.2)) 16
      let proc := { k.proc with name := name, pgdir := pgdir, sz := sz, eip := entry, esp := sp }
      match freevm k.vm k.proc.pgdir with
      | .error e => .error e
      | .ok m => .ok (0,{ k with vm := m,proc := proc })

/-- From the stack on: the program is loaded and its inode released. -/
def execCommit (k : State) (pgdir : Page) (sz entry : Nat) (path : Nat × Nat) (argv : List (Nat × Nat)) :
    Except Fault (Int × State) :=
  let sz := pgroundup sz
  match allocuvm k.vm pgdir sz (u32 (sz + 2*pgsize)) with
  | .error e => .error e
  | .ok (sz,m) =>
    if sz = 0 then execFree { k with vm := m } pgdir none
    else
      match clearpteu m pgdir (u32 (sz + 4294967296 - 2*pgsize)) with
      | .error e => .error e
      | .ok m =>
        match pushArgs pgdir argv { k with vm := m } sz [] with
        | .error e => .error e
        | .ok (none,k) => execFree k pgdir none
        | .ok (some (sp,pushed),k) => execStack k pgdir sz entry path sp pushed

/-- From the checked header on, with the new page directory. -/
def execLoad (k : State) (pgdir : Page) (ip : Slot) (elf : Elfhdr) (path : Nat × Nat)
    (argv : List (Nat × Nat)) : Except Fault (Int × State) :=
  match loadProgram pgdir ip elf.phnum k.fs k.vm 0 elf.phoff with
  | .error e => .error e
  | .ok (none,fs,m) => execFree { k with fs := fs,vm := m } pgdir (some ip)
  | .ok (some sz,fs,m) => execCommit { k with fs := iunlockput fs ip,vm := m } pgdir sz elf.entry path argv

/-- `data` is the address of the kernel's data segment; a string is its address
and length. -/
def exec (data : Nat) (k : State) (path : Nat × Nat) (argv : List (Nat × Nat)) : Except Fault (Int × State) :=
  match touch k path.1 (path.2 + 1) with
  | .error e => .error e
  | .ok k =>
    match namei k.fs k.proc.cwd (userString k path.1 path.2) with
    | .error e => .error e
    | .ok (none,fs) => .ok (-1,{ k with fs := fs })
    | .ok (some ip,fs) =>
      let (r,b,fs) := readi (ilock fs ip) ip fs.stack 0 elfhdrSize
      let k := { k with fs := fs }
      let elf := Elfhdr.decode b
      if r ≠ elfhdrSize then .ok (execBad k ip)
      else if elf.magic ≠ elfMagic then .ok (execBad k ip)
      else
        match setupkvm data k.vm with
        | .error e => .error e
        | .ok (none,m) => .ok (execBad { k with vm := m } ip)
        | .ok (some pgdir,m) => execLoad { k with vm := m } pgdir ip elf path argv

end Lxos.Kernel

import Lxos.Fs.State

/-! Physical pages and address spaces: `kalloc.c` and `vm.c`. A page is named by
its frame number, and is seen either as 1024 entries or as 4096 bytes; every page
is filled before it is used in the one way or the other. -/
namespace Lxos.Kernel
open Lxos.Bytes

abbrev Page := Nat

abbrev pgsize : Nat := 4096
abbrev kernbase : Nat := 2147483648
abbrev kernlink : Nat := 2148532224
abbrev extmem : Nat := 1048576
abbrev phystop : Nat := 234881024
abbrev devspace : Nat := 4261412864

/-- A page directory or page table entry. -/
structure Entry where
  present : Bool
  writable : Bool
  user : Bool
  page : Page
deriving DecidableEq, Repr

def Entry.zero : Entry := ⟨false,false,false,0⟩

/-- What `memset(v, 1, PGSIZE)` leaves: the word `0x01010101`. -/
def Entry.junk : Entry := ⟨true,false,false,4112⟩

structure Vm where
  table : Page → Nat → Entry
  frame : Page → Buffer
  freelist : List Page
  /-- Which of the next calls of `kalloc` are made to fail. -/
  refused : List Bool

namespace Vm

def setEntry (m : Vm) (p : Page) (i : Nat) (e : Entry) : Vm :=
  { m with table := Function.update m.table p (Function.update (m.table p) i e) }

def setFrame (m : Vm) (p : Page) (b : Buffer) : Vm := { m with frame := Function.update m.frame p b }

/-- `memset(p, 0, PGSIZE)`. -/
def clear (m : Vm) (p : Page) : Vm :=
  { m with table := Function.update m.table p (fun _ => .zero),frame := Function.update m.frame p zeros }

end Vm

def kfree (m : Vm) (p : Page) : Vm :=
  { m with
    table := Function.update m.table p (fun _ => .junk)
    frame := Function.update m.frame p (fun _ => 1)
    freelist := p :: m.freelist }

/-- The first free page, unless this call is one of those that fail. -/
def kalloc (m : Vm) : Option Page × Vm :=
  match m.refused with
  | true :: rest => (none,{ m with refused := rest })
  | _ =>
    match m.freelist with
    | [] => (none,{ m with refused := m.refused.tail })
    | p :: rest => (some p,{ m with freelist := rest,refused := m.refused.tail })

/-- `freerange` over `n` pages from `p`. -/
@[irreducible] def freerange (m : Vm) (p : Page) : Nat → Vm
  | 0 => m
  | n+1 => freerange (kfree m p) (p+1) n

def pdx (va : Nat) : Nat := va / 4194304 % 1024

def ptx (va : Nat) : Nat := va / 4096 % 1024

def pgrounddown (a : Nat) : Nat := a / pgsize * pgsize

def pgroundup (a : Nat) : Nat := Fs.u32 (a + 4095) / pgsize * pgsize

/-- The page table and the index in it, of the entry for `va`. -/
def walkpgdir (m : Vm) (pgdir : Page) (va : Nat) (alloc : Bool) : Option (Page × Nat) × Vm :=
  let pde := m.table pgdir (pdx va)
  if pde.present then (some (pde.page,ptx va),m)
  else if alloc then
    match kalloc m with
    | (none,m) => (none,m)
    | (some pgtab,m) =>
      (some (pgtab,ptx va),(m.clear pgtab).setEntry pgdir (pdx va) ⟨true,true,true,pgtab⟩)
  else (none,m)

/-- The loop of `mappages`; the result tells whether every page was mapped. -/
def mappagesLoop (pgdir : Page) (last : Nat) (writable user : Bool) :
    Nat → Vm → Nat → Page → Except Fs.Fault (Bool × Vm)
  | 0, _, _, _ => .error .hang
  | fuel+1, m, a, pa =>
    match walkpgdir m pgdir a true with
    | (none,m) => .ok (false,m)
    | (some (pgtab,i),m) =>
      let m := m.setEntry pgtab i ⟨true,writable,user,pa⟩
      if a = last then .ok (true,m)
      else mappagesLoop pgdir last writable user fuel m (Fs.u32 (a + pgsize)) ((pa+1) % 1048576)

/-- `pa` is the number of the first page; physical addresses wrap around too. -/
def mappages (m : Vm) (pgdir : Page) (va size : Nat) (pa : Page) (writable user : Bool) :
    Except Fs.Fault (Bool × Vm) :=
  mappagesLoop pgdir (pgrounddown (Fs.u32 (va + size + 4294967295))) writable user 1048576 m (pgrounddown va) pa

/-- The loop of `deallocuvm`. -/
def deallocuvmLoop (pgdir : Page) (oldsz : Nat) : Nat → Vm → Nat → Except Fs.Fault Vm
  | 0, _, _ => .error .hang
  | fuel+1, m, a =>
    if a < oldsz then
      match (walkpgdir m pgdir a false).1 with
      | none => deallocuvmLoop pgdir oldsz fuel m (Fs.u32 ((pdx a + 1) * 4194304))
      | some (pgtab,i) =>
        let pte := m.table pgtab i
        let m := if pte.present then (kfree m pte.page).setEntry pgtab i .zero else m
        deallocuvmLoop pgdir oldsz fuel m (Fs.u32 (a + pgsize))
    else .ok m

def deallocuvm (m : Vm) (pgdir : Page) (oldsz newsz : Nat) : Except Fs.Fault (Nat × Vm) :=
  if newsz ≥ oldsz then .ok (oldsz,m)
  else
    match deallocuvmLoop pgdir oldsz 1048577 m (pgroundup newsz) with
    | .error e => .error e
    | .ok m => .ok (newsz,m)

/-- The loop of `freevm` over the first `n` directory entries. -/
def freevmLoop (pgdir : Page) : Nat → Vm → Vm
  | 0, m => m
  | i+1, m =>
    let m := freevmLoop pgdir i m
    if (m.table pgdir i).present then kfree m (m.table pgdir i).page else m

def freevm (m : Vm) (pgdir : Page) : Except Fs.Fault Vm :=
  match deallocuvm m pgdir kernbase 0 with
  | .error e => .error e
  | .ok (_,m) => .ok (kfree (freevmLoop pgdir 1024 m) pgdir)

/-- A line of the kernel's mapping: virtual start, size and permission. -/
structure Kmap where
  virt : Nat
  physStart : Nat
  size : Nat
  writable : Bool

/-- `data` is the address that the linker gives to the data segment. -/
def kmap (data : Nat) : List Kmap :=
  [⟨kernbase,0,extmem,true⟩,⟨kernlink,kernlink - kernbase,data - kernlink,false⟩,
    ⟨data,data - kernbase,phystop - (data - kernbase),true⟩,⟨devspace,devspace,33554432,true⟩]

def setupkvmLoop (pgdir : Page) : List Kmap → Vm → Except Fs.Fault (Bool × Vm)
  | [], m => .ok (true,m)
  | k :: ks, m =>
    match mappages m pgdir k.virt k.size (k.physStart / pgsize) k.writable false with
    | .error e => .error e
    | .ok (false,m) => .ok (false,m)
    | .ok (true,m) => setupkvmLoop pgdir ks m

def setupkvm (data : Nat) (m : Vm) : Except Fs.Fault (Option Page × Vm) :=
  match kalloc m with
  | (none,m) => .ok (none,m)
  | (some pgdir,m) =>
    match setupkvmLoop pgdir (kmap data) (m.clear pgdir) with
    | .error e => .error e
    | .ok (true,m) => .ok (some pgdir,m)
    | .ok (false,m) =>
      match freevm m pgdir with
      | .error e => .error e
      | .ok m => .ok (none,m)

/-- The loop of `allocuvm`. -/
def allocuvmLoop (pgdir : Page) (oldsz newsz : Nat) : Nat → Vm → Nat → Except Fs.Fault (Nat × Vm)
  | 0, _, _ => .error .hang
  | fuel+1, m, a =>
    if a < newsz then
      match kalloc m with
      | (none,m) =>
        match deallocuvm m pgdir newsz oldsz with
        | .error e => .error e
        | .ok (_,m) => .ok (0,m)
      | (some mem,m) =>
        match mappages (m.clear mem) pgdir a pgsize mem true true with
        | .error e => .error e
        | .ok (false,m) =>
          match deallocuvm m pgdir newsz oldsz with
          | .error e => .error e
          | .ok (_,m) => .ok (0,kfree m mem)
        | .ok (true,m) => allocuvmLoop pgdir oldsz newsz fuel m (Fs.u32 (a + pgsize))
    else .ok (newsz,m)

@[irreducible] def allocuvm (m : Vm) (pgdir : Page) (oldsz newsz : Nat) : Except Fs.Fault (Nat × Vm) :=
  if newsz ≥ kernbase then .ok (0,m)
  else if newsz < oldsz then .ok (oldsz,m)
  else allocuvmLoop pgdir oldsz newsz 1048577 m (pgroundup oldsz)

def clearpteu (m : Vm) (pgdir : Page) (uva : Nat) : Except Fs.Fault Vm :=
  match (walkpgdir m pgdir uva false).1 with
  | none => .error .nullEntry
  | some (pgtab,i) => .ok (m.setEntry pgtab i { m.table pgtab i with user := false })

/-- The page under a user address. The entry is read without looking whether
there is a page table. -/
def uva2ka (m : Vm) (pgdir : Page) (uva : Nat) : Except Fs.Fault (Option Page) :=
  match (walkpgdir m pgdir uva false).1 with
  | none => .error .nullEntry
  | some (pgtab,i) =>
    let pte := m.table pgtab i
    .ok (if pte.present ∧ pte.user then some pte.page else none)

/-- The loop of `copyout`, a page at a time; `done` bytes are copied. -/
def copyoutLoop (pgdir : Page) (p : Buffer) (len : Nat) : Nat → Vm → Nat → Nat → Except Fs.Fault (Bool × Vm)
  | 0, _, _, _ => .error .hang
  | fuel+1, m, va, done =>
    if done < len then
      let va0 := pgrounddown va
      match uva2ka m pgdir va0 with
      | .error e => .error e
      | .ok none => .ok (false,m)
      | .ok (some page) =>
        let n := min (pgsize - (va - va0)) (len - done)
        let m := m.setFrame page (blit (m.frame page) (va - va0) n (fun i => p (done + i)))
        copyoutLoop pgdir p len fuel m (Fs.u32 (va0 + pgsize)) (done + n)
    else .ok (true,m)

def copyout (m : Vm) (pgdir : Page) (va : Nat) (p : Buffer) (len : Nat) : Except Fs.Fault (Bool × Vm) :=
  copyoutLoop pgdir p len (len+1) m va 0

/-- The one page of the first process. -/
def inituvm (m : Vm) (pgdir : Page) (init : Buffer) (sz : Nat) : Except Fs.Fault Vm :=
  match kalloc m with
  | (none,_) => .error .nullEntry
  | (some mem,m) =>
    match mappages (m.clear mem) pgdir 0 pgsize mem true true with
    | .error e => .error e
    | .ok (_,m) => .ok (m.setFrame mem (blit (m.frame mem) 0 sz init))

/-- The page and the offset that the processor finds for `va`. -/
def translate (m : Vm) (pgdir : Page) (va : Nat) : Option (Page × Nat) :=
  let pde := m.table pgdir (pdx va)
  let pte := m.table pde.page (ptx va)
  if pde.present ∧ pte.present then some (pte.page,va % pgsize) else none

end Lxos.Kernel

import HustOS.Foundations.Leb128
import HustOS.Kernel

/-!
# ELF files

What the loader reads of an ELF file: the file header (`ElfHeader`), the program headers
(`ElfProgHeader`), the section headers (`ElfSectHeader`) and the symbols (`ElfSym`), each with the
fields that the code uses, at the places that the structures of `kernel/elf.h` give them. A
structure is read into the bytes of a variable with `elf_fpread` (`elfFpread`), which leaves the end
of the variable as it was when the file ends before it.
-/

namespace HustOS.Elf

open Foundations

/-! ## Bytes of a file -/

/-- The bytes of a file. -/
abbrev File : Type := List UInt8

/-- The bytes of a file as a buffer. -/
def File.buf (f : File) : Buf := fun i => f.getD i 0

/-- The bytes from an offset on. -/
def bytesAt (b : Buf) (off : ℕ) : Buf := fun i => b (off + i)

/-- A 16-bit number. -/
def u16 (b : Buf) (off : ℕ) : ℕ := (b off).toNat + 256 * (b (off + 1)).toNat

/-- A 64-bit number. -/
def u64 (b : Buf) (off : ℕ) : ℕ := b.u32 off + 4294967296 * b.u32 (off + 4)

/-- `elf_fpread`: what a variable holds after `nb` bytes are read into it from an offset (of 64
bits) of the file. -/
def elfFpread (f : File) (dest : Buf) (nb off : ℕ) : Buf := fun i =>
  if i < nb ∧ off % 2 ^ 64 + i < f.length then f.getD (off % 2 ^ 64 + i) 0 else dest i

/-- The number of bytes that `elf_fpread` reads. -/
def elfFpreadCount (f : File) (nb off : ℕ) : ℕ := min nb (f.length - off % 2 ^ 64)

/-! ## Structures -/

/-- `elf_header`. -/
structure ElfHeader where
  magic : ℕ
  entry : ℕ
  phoff : ℕ
  shoff : ℕ
  phnum : ℕ
  shentsize : ℕ
  shnum : ℕ
  shstrndx : ℕ

/-- The fields of an `elf_header`. -/
def ElfHeader.ofBuf (b : Buf) : ElfHeader where
  magic := b.u32 0
  entry := u64 b 24
  phoff := u64 b 32
  shoff := u64 b 40
  phnum := u16 b 56
  shentsize := u16 b 58
  shnum := u16 b 60
  shstrndx := u16 b 62

/-- `elf_prog_header`. -/
structure ElfProgHeader where
  type : ℕ
  flags : ℕ
  off : ℕ
  vaddr : ℕ
  filesz : ℕ
  memsz : ℕ
  deriving DecidableEq

/-- The fields of an `elf_prog_header`. -/
def ElfProgHeader.ofBuf (b : Buf) : ElfProgHeader where
  type := b.u32 0
  flags := b.u32 4
  off := u64 b 8
  vaddr := u64 b 16
  filesz := u64 b 32
  memsz := u64 b 40

/-- `elf_sect_header`. -/
structure ElfSectHeader where
  name : ℕ
  offset : ℕ
  size : ℕ
  deriving DecidableEq

/-- The fields of an `elf_sect_header`. -/
def ElfSectHeader.ofBuf (b : Buf) : ElfSectHeader where
  name := b.u32 0
  offset := u64 b 24
  size := u64 b 32

/-- `elf_sym`. -/
structure ElfSym where
  name : ℕ
  info : ℕ
  value : ℕ
  deriving DecidableEq

/-- The fields of an `elf_sym`. -/
def ElfSym.ofBuf (b : Buf) : ElfSym where
  name := b.u32 0
  info := (b 4).toNat
  value := u64 b 8

/-- `sizeof(elf_header)`. -/
abbrev ELF_HEADER_SIZE : ℕ := 64

/-- `sizeof(elf_prog_header)`. -/
abbrev PROG_HEADER_SIZE : ℕ := 56

/-- `sizeof(elf_sect_header)`. -/
abbrev SECT_HEADER_SIZE : ℕ := 64

/-- `sizeof(elf_sym)`. -/
abbrev SYM_SIZE : ℕ := 24

variable {f : File} {b b' dest : Buf} {n nb off : ℕ}

/-- What is read of a place inside the file is what the file has there. -/
theorem elfFpread_apply (hoff : off < 2 ^ 64) {i : ℕ} (hi : i < nb) (hlen : off + i < f.length) :
    elfFpread f dest nb off i = bytesAt f.buf off i := by
  rw [elfFpread, Nat.mod_eq_of_lt hoff, if_pos ⟨hi, hlen⟩, bytesAt, File.buf]

theorem u64_congr (h : ∀ i < 8, b' (off + i) = b (off + i)) : u64 b' off = u64 b off := by
  have hlow : b'.u32 off = b.u32 off := Buf.u32_congr fun i hi => h i (by omega)
  have hhigh : b'.u32 (off + 4) = b.u32 (off + 4) := Buf.u32_congr fun i hi => by
    rw [Nat.add_assoc]
    exact h (4 + i) (by omega)
  rw [u64, u64, hlow, hhigh]

theorem u64_lt (b : Buf) (off : ℕ) : u64 b off < 2 ^ 64 := by
  have h₀ := b.u32_lt off
  have h₁ := b.u32_lt (off + 4)
  rw [u64]
  omega

/-- A symbol is in its bytes. -/
theorem ElfSym.ofBuf_congr (h : ∀ i < 24, b' i = b i) : ElfSym.ofBuf b' = ElfSym.ofBuf b := by
  have hname : b'.u32 0 = b.u32 0 := Buf.u32_congr fun i hi => by
    rw [Nat.zero_add]
    exact h i (by omega)
  have hvalue : u64 b' 8 = u64 b 8 := u64_congr fun i hi => h (8 + i) (by omega)
  rw [ElfSym.ofBuf, ElfSym.ofBuf, hname, hvalue, h 4 (by decide)]

/-- A program header is in its bytes. -/
theorem ElfProgHeader.ofBuf_congr (h : ∀ i < PROG_HEADER_SIZE, b' i = b i) :
    ElfProgHeader.ofBuf b' = ElfProgHeader.ofBuf b := by
  have h32 : ∀ off, off + 4 ≤ PROG_HEADER_SIZE → b'.u32 off = b.u32 off := fun off ho =>
    Buf.u32_congr fun i hi => h (off + i) (by omega)
  have h64 : ∀ off, off + 8 ≤ PROG_HEADER_SIZE → u64 b' off = u64 b off := fun off ho =>
    u64_congr fun i hi => h (off + i) (by omega)
  rw [ElfProgHeader.ofBuf, ElfProgHeader.ofBuf, h32 0 (by decide), h32 4 (by decide),
    h64 8 (by decide), h64 16 (by decide), h64 32 (by decide), h64 40 (by decide)]

end HustOS.Elf

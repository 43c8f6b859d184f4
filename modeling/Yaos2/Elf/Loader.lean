import Yaos2.Process.Image
import Yaos2.Utils

/-! # Loading an ELF executable

`exec_user_elf_program` up to the call of `schedule_proc`. The file is the list of bytes that reading it
gives. -/
namespace Yaos2.Elf
open Foundation Memory Process

def elfMagic : List UInt8 := [0x7f, 0x45, 0x4c, 0x46]
def elfBits32 : UInt8 := 1
def elfLittleEndian : UInt8 := 1
def elfTypeExec : ℕ := 2
def elfIsetX86 : ℕ := 3
def elfSegLoad : ℕ := 1
def elfShtProgbits : ℕ := 1

def stdinFileno : Fin procMaxFiles := ⟨0,by decide⟩
def stdoutFileno : Fin procMaxFiles := ⟨1,by decide⟩
def stderrFileno : Fin procMaxFiles := ⟨2,by decide⟩

def field (buf : List UInt8) (o : ℕ) : ℕ → ℕ
  | 0 => 0
  | n+1 => (buf.getD o 0).toNat+256*field buf (o+1) n

structure ElfHeader where
  magic : List UInt8
  bits : UInt8
  endianness : UInt8
  type : ℕ
  iset : ℕ
  deriving DecidableEq, Repr

def ElfHeader.ofBytes (buf : List UInt8) : ElfHeader where
  magic := buf.take 4
  bits := buf.getD 4 0
  endianness := buf.getD 5 0
  type := field buf 16 2
  iset := field buf 18 2

structure Elf32Header where
  pePos : ℕ
  phtPos : ℕ
  shtPos : ℕ
  pheSize : ℕ
  phtLen : ℕ
  sheSize : ℕ
  shtLen : ℕ
  deriving DecidableEq, Repr

def Elf32Header.ofBytes (buf : List UInt8) : Elf32Header where
  pePos := field buf 0 4
  phtPos := field buf 4 4
  shtPos := field buf 8 4
  pheSize := field buf 18 2
  phtLen := field buf 20 2
  sheSize := field buf 22 2
  shtLen := field buf 24 2

structure Elf32ProgramHeader where
  type : ℕ
  fileOffset : ℕ
  memOffset : ℕ
  fileSize : ℕ
  memSize : ℕ
  deriving DecidableEq, Repr

def Elf32ProgramHeader.ofBytes (buf : List UInt8) : Elf32ProgramHeader where
  type := field buf 0 4
  fileOffset := field buf 4 4
  memOffset := field buf 8 4
  fileSize := field buf 16 4
  memSize := field buf 20 4

structure Elf32SectionHeader where
  type : ℕ
  memOffset : ℕ
  fileOffset : ℕ
  fileSize : ℕ
  deriving DecidableEq, Repr

def Elf32SectionHeader.ofBytes (buf : List UInt8) : Elf32SectionHeader where
  type := field buf 4 4
  memOffset := field buf 12 4
  fileOffset := field buf 16 4
  fileSize := field buf 20 4

/-- What uninitialized variables on the stack and memory from `kalloc` hold. -/
structure Stale where
  header : List UInt8
  header32 : List UInt8
  program : List UInt8
  sectionHeader : List UInt8
  contents : ℕ → UInt8
  header_length : header.length=24
  header32_length : header32.length=28
  program_length : program.length=32
  sectionHeader_length : sectionHeader.length=40

/-- The buffer after `f->read` of its whole length; nothing is read from the end of the file on. -/
def fileRead (file : List UInt8) (offset : ℕ) (buf : List UInt8) : List UInt8 :=
  if buf.length<2^31 ∧ offset<file.length then
    let data := (file.drop offset).take buf.length
    data++buf.drop data.length
  else buf

variable (L : Layout) (text : KernelText) (stale : Stale) (file : List UInt8)

/-- The loop `while (v <= vto)`. -/
def reservePages : ℕ → Proc → ℕ → ℕ → Kernel Proc
  | 0, _, _, _ => abort "endless loop"
  | fuel+1, proc, v, vto =>
    if v≤vto then do
      let proc ← procVmreserve L proc v (vmUser ||| vmWrite ||| vmExec)
      reservePages fuel proc ((v+pageSize)%2^32) vto
    else
      pure proc

/-- The end of a segment, down to its page. -/
def segmentEnd (ph : Elf32ProgramHeader) : ℕ := maskToPage ((ph.memOffset+ph.memSize)%2^32)

def handleSegment (ph : Elf32ProgramHeader) (proc : Proc) (vbreak : ℕ) : Kernel (Proc × ℕ) := do
  kassert "program_32.type == ELF_SEG_LOAD" (ph.type == elfSegLoad)
  let vto := segmentEnd ph
  let proc ← reservePages L addressPages proc (maskToPage ph.memOffset) vto
  return (proc, if vto > vbreak then vto else vbreak)

/-- The loop over the program header table, from entry `i` on. `buf` is `program_32`. -/
def loadSegments (hdr : Elf32Header) : ℕ → ℕ → List UInt8 → Proc → ℕ → Kernel (Proc × ℕ)
  | 0, _, _, proc, vbreak => return (proc, vbreak)
  | n+1, i, buf, proc, vbreak => do
    let buf := fileRead file ((hdr.phtPos+i*hdr.pheSize)%2^32) buf
    let (proc, vbreak) ← handleSegment L (.ofBytes buf) proc vbreak
    loadSegments hdr n (i+1) buf proc vbreak

def sectionContents (sh : Elf32SectionHeader) : List UInt8 :=
  fileRead file sh.fileOffset ((List.range sh.fileSize).map stale.contents)

def handleSectionLoad (proc : Proc) (sh : Elf32SectionHeader) : Kernel Unit := do
  let _ ← procVmwrite L proc.pd sh.memOffset (sectionContents stale file sh)

def handleSection (proc : Proc) (sh : Elf32SectionHeader) : Kernel Unit :=
  if sh.type=elfShtProgbits ∧ sh.fileSize > 0 ∧ sh.memOffset > 0 then
    handleSectionLoad L stale file proc sh
  else
    pure ()

/-- The loop over the section header table, from entry `i` on. `buf` is `section_32`. -/
def loadSections (hdr : Elf32Header) (proc : Proc) : ℕ → ℕ → List UInt8 → Kernel Unit
  | 0, _, _ => return ()
  | n+1, i, buf => do
    let buf := fileRead file ((hdr.shtPos+i*hdr.sheSize)%2^32) buf
    handleSection L stale file proc (.ofBytes buf)
    loadSections hdr proc n (i+1) buf

/-- The pointers, one more for the end, and the strings with their terminators. -/
def formattedEnvSize (env : List (List UInt8)) : ℕ := 4+(env.map (fun e=>e.length+1+4)).sum

/-- The loop that reserves the pages of the environment. -/
def reserveEnv : ℕ → Proc → ℕ → Kernel (Proc × ℕ)
  | 0, proc, vbreak => return (proc, vbreak)
  | n+1, proc, vbreak => do
    let proc ← procVmreserve L proc vbreak vmUser
    reserveEnv n proc ((vbreak+pageSize)%2^32)

/-- The four bytes of a pointer. -/
def wordBytes (x : ℕ) : List UInt8 :=
  [UInt8.ofNat x, UInt8.ofNat (x/2^8), UInt8.ofNat (x/2^16), UInt8.ofNat (x/2^24)]

/-- The loop that writes the table, from entry `i` on. -/
def writeEnv (pd envTable envStrings : ℕ) : List (List UInt8) → ℕ → ℕ → Kernel Unit
  | [], i, _ => do
    let _ ← procVmwrite L pd ((envTable+i*4)%2^32) (wordBytes 0)
  | e::env, i, offset => do
    let envLoc := (envStrings+offset)%2^32
    let _ ← procVmwrite L pd ((envTable+i*4)%2^32) (wordBytes envLoc)
    let _ ← procVmwrite L pd envLoc (e++[0])
    writeEnv pd envTable envStrings env (i+1) (offset+e.length+1)

/-- Create the initial environment table. The break after it is returned. -/
def createEnv (env : List (List UInt8)) (proc : Proc) (envTable : ℕ) : Kernel (Proc × ℕ) := do
  let (proc, vbreak) ← reserveEnv L (formattedEnvSize env%2^32/pageSize+1) proc envTable
  writeEnv L proc.pd envTable ((envTable+(env.length+1)*4)%2^32) env 0 0
  return (proc, vbreak)

/-- The memory of the new process: its segments, stack, environment and break. -/
structure Placement where
  proc : Proc
  stack : ℕ
  envTable : ℕ
  vbreak : ℕ

def buildMemory (hdr : Elf32Header) (env : List (List UInt8)) (proc : Proc) : Kernel Placement := do
  let (proc, stack) ← loadSegments L file hdr hdr.phtLen 0 stale.program proc 0
  loadSections L stale file hdr proc hdr.shtLen 0 stale.sectionHeader
  let proc ← procVmreserve L proc stack (vmUser ||| vmWrite)
  let envTable := (stack+pageSize)%2^32
  let (proc, vbreak) ← createEnv L env proc envTable
  return ⟨proc,stack,envTable,vbreak⟩

def uthreadCreate (stack0 tentry stack stackSize : ℕ) (parent : UserProc) : Exec Kern ArchThread := do
  let thread ← x86ThreadConstructThread stack0 4096 stack stackSize tentry true userCodeSelector
    userDataSelector parent.arch.pd
  let (kernelStacks, thread) := setupUthreadStack text (← get).kernelStacks thread none
  modify fun k=>{k with kernelStacks := kernelStacks}
  return thread

/-- `proc_bind` of one of the standard streams, that `vfs_open` returned. -/
def bindStream (name : String) (proc : UserProc) (fd : Fin procMaxFiles) (f : Option ℕ) : Exec Kern UserProc := do
  match f with
  | none => abort ("exec_user_elf_program(): could not open " ++ name)
  | some f =>
    return if proc.openedFiles fd=none then
      {proc with openedFiles := Function.update proc.openedFiles fd (some f)} else proc

def checkHeader (header : ElfHeader) : Exec Kern Unit := do
  kassert "kmemcmp(header.magic, ELF_MAGIC, sizeof(header.magic))" (kstrncmp header.magic elfMagic 4)
  kassert "header.bits == ELF_BITS_32" (header.bits == elfBits32)
  kassert "header.endianness == ELF_LITTLE_ENDIAN" (header.endianness == elfLittleEndian)
  kassert "header.iset == ELF_ISET_X86" (header.iset == elfIsetX86)
  kassert "header.type == ELF_TYPE_EXEC" (header.type == elfTypeExec)

/-- The header of the file, after the first read. -/
def header : ElfHeader := .ofBytes (fileRead file 0 stale.header)

/-- The rest of the header, after the second read. -/
def header32 : Elf32Header := .ofBytes (fileRead file 24 stale.header32)

/-- The process and the thread that go to `schedule_proc`. `f`, `stdin`, `stdout`, `stderr` are from
`vfs_open`. -/
def execUserElfProgram (f : Option (List UInt8)) (stdin stdout stderr : Option ℕ) (env : List (List UInt8))
    (stack0 : ℕ) : Exec Kern (UserProc × ArchThread) := do
  kassert "f != NULL" f.isSome
  let file := f.getD []
  checkHeader (header stale file)
  let proc ← procAlloc L
  let hdr := header32 stale file
  let place ← onMachine (buildMemory L stale file hdr env proc.arch.toProc)
  let proc : UserProc := {proc with arch := {
    toProc := {place.proc with vbreak := place.vbreak, curVbreak := place.vbreak}
    vstack := place.stack
    stackSize := pageSize
    venvironment := place.envTable}}
  let thread ← uthreadCreate text stack0 hdr.pePos place.stack pageSize proc
  let proc ← bindStream "stdin" proc stdinFileno stdin
  let proc ← bindStream "stdout" proc stdoutFileno stdout
  let proc ← bindStream "stderr" proc stderrFileno stderr
  return (proc, thread)

section

/-- The entries of the program header table, as they are read one after the other. -/
def programHeaders (hdr : Elf32Header) : ℕ → ℕ → List UInt8 → List Elf32ProgramHeader
  | 0, _, _ => []
  | n+1, i, buf =>
    let buf := fileRead file ((hdr.phtPos+i*hdr.pheSize)%2^32) buf
    .ofBytes buf::programHeaders hdr n (i+1) buf

def sectionHeaders (hdr : Elf32Header) : ℕ → ℕ → List UInt8 → List Elf32SectionHeader
  | 0, _, _ => []
  | n+1, i, buf =>
    let buf := fileRead file ((hdr.shtPos+i*hdr.sheSize)%2^32) buf
    .ofBytes buf::sectionHeaders hdr n (i+1) buf

def segments : List Elf32ProgramHeader :=
  programHeaders file (header32 stale file) (header32 stale file).phtLen 0 stale.program

def sections : List Elf32SectionHeader :=
  sectionHeaders file (header32 stale file) (header32 stale file).shtLen 0 stale.sectionHeader

def handleSegments : List Elf32ProgramHeader → Proc → ℕ → Kernel (Proc × ℕ)
  | [], proc, vbreak => return (proc, vbreak)
  | ph::phs, proc, vbreak => do
    let (proc, vbreak) ← handleSegment L ph proc vbreak
    handleSegments phs proc vbreak

def handleSections (proc : Proc) : List Elf32SectionHeader → Kernel Unit
  | [] => return ()
  | sh::shs => do
    handleSection L stale file proc sh
    handleSections proc shs

theorem loadSegments_eq (hdr : Elf32Header) (n i : ℕ) (buf : List UInt8) (proc : Proc) (vbreak : ℕ) :
    loadSegments L file hdr n i buf proc vbreak =
      handleSegments L (programHeaders file hdr n i buf) proc vbreak := by
  induction n generalizing i buf proc vbreak with
  | zero => rfl
  | succ n ih =>
    rw [loadSegments,programHeaders,handleSegments]
    simp only [ih]

theorem loadSections_eq (hdr : Elf32Header) (proc : Proc) (n i : ℕ) (buf : List UInt8) :
    loadSections L stale file hdr proc n i buf =
      handleSections L stale file proc (sectionHeaders file hdr n i buf) := by
  induction n generalizing i buf with
  | zero => rfl
  | succ n ih =>
    rw [loadSections,sectionHeaders,handleSections]
    simp only [ih]

theorem buildMemory_eq (env : List (List UInt8)) (proc : Proc) :
    buildMemory L stale file (header32 stale file) env proc=(do
      let (proc, stack) ← handleSegments L (segments stale file) proc 0
      handleSections L stale file proc (sections stale file)
      let proc ← procVmreserve L proc stack (vmUser ||| vmWrite)
      let envTable := (stack+pageSize)%2^32
      let (proc, vbreak) ← createEnv L env proc envTable
      return ⟨proc,stack,envTable,vbreak⟩) := by
  simp only [buildMemory,loadSegments_eq,loadSections_eq,segments,sections]
end

end Yaos2.Elf

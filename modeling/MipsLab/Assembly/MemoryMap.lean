import MipsLab.Text.Bytes

/-! The memory map that the assembler and the machine share. -/
namespace MipsLab.MemoryMap

def textBase : Word := 0x00400000

/-- The first address past the text segment. -/
def textLimit : Word := 0x10000000

/-- The lowest address that a program may read and write. -/
def dataSegmentBase : Word := 0x10000000

def dataBase : Word := 0x10010000

def heapBase : Word := 0x10040000

def globalPointer : Word := 0x10008000

def stackTop : Word := 0x7FFFEFFC

/-- The highest address that a program may read and write below the terminal. -/
def userLimit : Word := 0x7FFFFFFF

def terminalBase : Word := 0xFFFF0000

def terminalColumns : Nat := 80

def terminalRows : Nat := 25

/-- A terminal cell is a character and a color. -/
def terminalBytes : Nat := terminalColumns * terminalRows * 2

end MipsLab.MemoryMap

import Minios.Schemes.Bytes

/-! Constants of `kernel/param.h` and `kernel/fs.h`, and the disk blocks everything else is made of.

    A block is its `BSIZE` bytes; a disk maps block numbers to blocks. -/

namespace Minios

/-- Most blocks one file-system operation writes. -/
abbrev MAXOPBLOCKS : ℕ := 10

/-- Most data blocks in the on-disk log. -/
abbrev LOGSIZE : ℕ := MAXOPBLOCKS * 3

/-- Size of the disk block cache. -/
abbrev NBUF : ℕ := MAXOPBLOCKS * 3

instance : NeZero NBUF := ⟨by decide⟩

/-- Block size in bytes. -/
abbrev BSIZE : ℕ := 1024

abbrev Block := Fin BSIZE → UInt8

abbrev Disk := ℕ → Block

end Minios

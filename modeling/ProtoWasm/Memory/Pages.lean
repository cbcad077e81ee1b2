/-! # Pages of 64 KiB, of which a memory has at most 65536 -/
namespace ProtoWasm.Memory

def pageSize : Nat := 65536

def maxPages : Nat := 65536

def bytesOfPages (pages : Nat) : Nat := pages * pageSize

/-- The size of so many pages in the largest unit that gives a number of at least one. -/
def pagesText (pages : Nat) : String :=
  let kib := pages * 64
  if kib < 1024 then s!"{kib} Ki"
  else if kib / 1024 < 1024 then s!"{kib / 1024} Mi"
  else if kib / 1024 / 1024 < 1024 then s!"{kib / 1024 / 1024} Gi"
  else s!"{kib / 1024 / 1024 / 1024} Ti"

end ProtoWasm.Memory

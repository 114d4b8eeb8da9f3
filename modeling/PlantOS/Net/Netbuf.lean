import PlantOS.Common.Word

/-!
# Packet buffers

Model of `net/netbuf.c` and of the byte-order accessors of `net/net.h`. A netbuf is the memory of its
`raw` array and of what lies behind it, the offset of `data` in it, and the length.

Reference: `net/netbuf.c`.
-/

namespace PlantOS.Net

open Word

/-- `NETBUF_SIZE`. -/
def netbufSize : ℕ := 2048

/-- `NETBUF_HEADROOM`. -/
def netbufHeadroom : ℕ := 64

/-- `struct netbuf`. -/
structure Netbuf where
  raw : ℕ → UInt8
  data : ℕ
  len : ℕ

/-- `netbuf_alloc`, when `kmalloc` succeeds. -/
def netbufAlloc : Netbuf := { raw := fun _ => 0, data := netbufHeadroom, len := 0 }

/-- `netbuf_push`. -/
def netbufPush (nb : Netbuf) (len : ℕ) : Option Netbuf :=
  if nb.data < len then none
  else some { nb with data := nb.data - len, len := wrap 16 (nb.len + len) }

/-- `netbuf_pull`; callers do not look at its result. -/
def netbufPull (nb : Netbuf) (len : ℕ) : Netbuf :=
  if nb.len < len then nb else { nb with data := nb.data + len, len := nb.len - len }

/-- `netbuf_put`. -/
def netbufPut (nb : Netbuf) (len : ℕ) : Option Netbuf :=
  if netbufSize < nb.data + nb.len + len then none
  else some { nb with len := wrap 16 (nb.len + len) }

/-- The byte `data[i]`. -/
def Netbuf.byte (nb : Netbuf) (i : ℕ) : UInt8 := nb.raw (nb.data + i)

/-- `ntohs` of the halfword at `data + i`. -/
def Netbuf.be16 (nb : Netbuf) (i : ℕ) : BitVec 16 :=
  (nb.byte i).toBitVec ++ (nb.byte (i + 1)).toBitVec

/-- `ntohl` of the word at `data + i`. -/
def Netbuf.be32 (nb : Netbuf) (i : ℕ) : BitVec 32 := nb.be16 i ++ nb.be16 (i + 2)

/-- The bytes of a halfword in network order. -/
def be16Bytes (x : BitVec 16) : List UInt8 := [⟨x.extractLsb' 8 8⟩, ⟨x.extractLsb' 0 8⟩]

end PlantOS.Net

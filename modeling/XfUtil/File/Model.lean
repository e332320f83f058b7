import XfUtil.Base.OpenFiles
import XfUtil.Path.Model

/-!
# `File`

A file object is a descriptor that it owns. Which file a path names is a parameter, since
two paths may name one file. A failed call is an `Except.error` with the `errno` that it
leaves behind; the answers of the environment are consumed one for each call.
-/

namespace XfUtil

open FlatMemory OpenFiles

/-- `m_fid`; `none` is `INVALID_FILEID`. -/
structure File where
  fid : Option Nat
deriving Repr, DecidableEq

namespace File

/-! ## Flags -/

def ofReadonly : BitVec 32 := 0x0#32
def ofWriteonly : BitVec 32 := 0x1#32
def ofReadwrite : BitVec 32 := 0x2#32
def ofCreate : BitVec 32 := 0x40#32
def ofTruncate : BitVec 32 := 0x200#32
def ofAppend : BitVec 32 := 0x400#32

/-- `O_LARGEFILE`. -/
def oLargefile : BitVec 32 := 0x8000#32

/-- What `open` makes of its flags. -/
def access (flags : BitVec 32) : Access where
  readable := flags &&& 3#32 == ofReadonly || flags &&& 3#32 == ofReadwrite
  writable := flags &&& 3#32 == ofWriteonly || flags &&& 3#32 == ofReadwrite
  create := flags &&& ofCreate != 0#32
  truncate := flags &&& ofTruncate != 0#32
  append := flags &&& ofAppend != 0#32

/-! ## Calls -/

variable {ι : Type*}

/-- The constructor. -/
def new : File := ⟨none⟩

/-- The return value of `Open`. -/
def valid (f : File) : Bool := f.fid.isSome

/-- `Close`, as far as the object is concerned. -/
def closed (_ : File) : File := ⟨none⟩

/-- `Close`, as far as the descriptor is concerned. -/
def close (f : File) (k : Kernel ι Byte) : Kernel ι Byte := k.close f.fid

/-- `Read(buf, buf_size)`, by the bytes that are put into the buffer. -/
def read (f : File) (size : Nat) (valid : Bool) (k : Kernel ι Byte) (as : List Answer) :
    Option (Except Errno (List Byte) × Kernel ι Byte × List Answer) :=
  retry (fun k a => k.read f.fid size valid a) k as

variable [DecidableEq ι]

/-- `Open`. It is made with the mode 0644 whatever the mask of the process, and not made
again if it is interrupted. -/
def «open» (resolve : FilePath → ι) (path : FilePath) (flags : BitVec 32) (k : Kernel ι Byte)
    (a : Answer) : File × Kernel ι Byte :=
  let r := if path = [] then (.error enoent, { k with umask := 0#32 })
    else { k with umask := 0#32 }.open (resolve path) (access (flags ||| oLargefile)) 0o644#32 a
  (⟨r.1.toOption⟩, { r.2 with umask := k.umask })

/-- `Write(buf, buf_size)`. -/
def write (f : File) (data : List Byte) (k : Kernel ι Byte) (as : List Answer) :
    Option (Except Errno Nat × Kernel ι Byte × List Answer) :=
  retry (fun k a => k.write f.fid data a) k as

/-! ## `Copy` -/

/-- `BUF_SIZE`. -/
def bufSize : Nat := 1024 * 1024

/-- The loop of `Copy`. A pass takes an answer at least, so there are no more passes than
answers. -/
def copyLoop (src dst : File) (valid : Bool) :
    Nat → Kernel ι Byte → List Answer → Option (Bool × Kernel ι Byte × List Answer)
  | 0, _, _ => none
  | fuel + 1, k, as =>
      match src.read bufSize valid k as with
      | none => none
      | some (.error _, k, as) => some (false, k, as)
      | some (.ok bytes, k, as) =>
          if bytes = [] then some (true, k, as)
          else
            match dst.write bytes k as with
            | none => none
            | some (.error _, k, as) => some (false, k, as)
            | some (.ok n, k, as) =>
                if n ≠ bytes.length then some (false, k, as)
                else copyLoop src dst valid fuel k as

/-- `Sync`, whose answer `Copy` does not look at. -/
def sync (as : List Answer) : Option (List Answer) :=
  match as with
  | [] => none
  | _ :: as => some as

/-- `xmalloc` answers with a buffer or with a null pointer. -/
def allocates : Answer → Bool
  | .error _ => false
  | .count _ => true

/-- The flags with which `Copy` opens the destination. -/
def copyFlags : BitVec 32 := ofCreate ||| ofWriteonly ||| ofTruncate

/-- `Copy` with both files open. -/
def copyOpen (src dst : File) (syncs : Bool) (k : Kernel ι Byte) :
    List Answer → Option (Bool × Kernel ι Byte × List Answer)
  | [] => none
  | a :: as =>
      match copyLoop src dst (allocates a) as.length k as with
      | none => none
      | some (false, k, as) => some (false, k, as)
      | some (true, k, as) =>
          if syncs then (sync as).map fun as => (true, k, as) else some (true, k, as)

/-- `Copy`. The destructors close the files on every way out. -/
def copy (resolve : FilePath → ι) (srcPath dstPath : FilePath) (syncs : Bool)
    (k : Kernel ι Byte) : List Answer → Option (Bool × Kernel ι Byte × List Answer)
  | [] => none
  | a :: as =>
      let (src, k) := File.open resolve srcPath ofReadonly k a
      if !src.valid then some (false, k, as)
      else
        match as with
        | [] => none
        | a :: as =>
            let (dst, k) := File.open resolve dstPath copyFlags k a
            if !dst.valid then some (false, src.close k, as)
            else
              (copyOpen src dst syncs k as).map fun r =>
                (r.1, src.close (dst.close r.2.1), r.2.2)

end File

end XfUtil

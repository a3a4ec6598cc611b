import V7Besm.Words.Stretch

/-!
Streams: `lib/libc/stdio`.

The table `_iob`, memory as bytes, and the log of what was handed to the kernel with `write(2)`.
An address counts the bytes of memory, 0 is the null pointer, and an address is on a word boundary
if the 6 bytes of a word divide it. What the kernel and the allocator answer during a call is a
parameter of the call.
-/

namespace V7Besm.Stdio

open Words Function

def BUFSIZ : Nat := 3072
def NFILE : Nat := 20
def NBPW : Nat := 6
def MEMSTART : Nat := 48
def EOF : Int := -1
def newline : Nat := 10

structure Flag where
  read : Bool := false
  wrt : Bool := false
  unbuf : Bool := false
  mybuf : Bool := false
  eof : Bool := false
  err : Bool := false
  strg : Bool := false
  rw : Bool := false
  lbuf : Bool := false
  mem : Bool := false
  deriving DecidableEq

structure FILE where
  ptr : Nat := 0
  cnt : Int := 0
  base : Nat := 0
  bufsiz : Nat := 0
  flag : Flag := {}
  file : Nat := 0
  deriving DecidableEq

/-- `_flag & (_IOREAD | _IOWRT | _IORW)`. -/
def FILE.busy (f : FILE) : Bool := f.flag.read || f.flag.wrt || f.flag.rw

/-- Where the buffers of the library are: `_sibuf`, `_sobuf`, and the one byte for each descriptor
in `_filbuf`. -/
structure Layout where
  (sibuf sobuf smallbuf : Nat)
  sibuf_pos : 0 < sibuf
  sobuf_pos : 0 < sobuf
  smallbuf_pos : 0 < smallbuf

/-- A program with its streams. The entries of `iob` from `NFILE` on stand for what is behind the
table in memory. `membuf` and `memsize` are the variables a memory stream keeps current for its
caller, by slot. -/
structure World where
  iob : Nat → FILE
  mem : Nat → UInt8
  wrote : List (Nat × List UInt8)
  membuf : Nat → Nat
  memsize : Nat → Nat

/-- The answers during one call: the address from `malloc` or `realloc`, or 0; how many bytes
`write` takes at most, if it does not take all; what `read` delivers when so many bytes of the
request are left, `none` for an error; the positions from `lseek`. -/
structure Answers where
  malloc : Nat := 0
  isatty : Bool := false
  write : Option Nat := none
  read : Nat → Option (List UInt8) := fun _ => some []
  tell : Int := 0
  lseek : Int := 0
  close : Bool := true

def World.set (w : World) (i : Nat) (f : FILE) : World := { w with iob := update w.iob i f }

def World.store (w : World) (a : Nat) (c : UInt8) : World := { w with mem := update w.mem a c }

variable (lay : Layout) (ans : Answers)

/-! ### Writing -/

def write (fd : Nat) (bytes : List UInt8) (w : World) : Nat × World :=
  let n := (ans.write.map (min bytes.length)).getD bytes.length
  (n, { w with wrote := w.wrote ++ [(fd, bytes.take n)] })

def drain (i base n : Nat) (w : World) : Int × World :=
  let f := { w.iob i with ptr := base }
  let w := w.set i f
  if 0 < n then
    let (taken, w) := write ans f.file (stretch w.mem base n) w
    if taken ≠ n then (EOF, w.set i { f with flag := { f.flag with err := true } })
    else (0, w)
  else (0, w)

/-- `realloc` to twice the size: the new block starts with the bytes of the old one. -/
def grow (i len : Nat) (w : World) : Int × World :=
  let f := w.iob i
  let slot := f.file - NFILE
  if ans.malloc = 0 then
    (EOF, { w.set i { f with base := 0, ptr := 0, bufsiz := 0,
                             flag := { f.flag with err := true } } with
      membuf := update w.membuf slot 0
      memsize := update w.memsize slot 0 })
  else
    (0, { w.set i { f with base := ans.malloc, ptr := ans.malloc + len, bufsiz := f.bufsiz * 2 } with
      mem := storeAll w.mem ans.malloc (stretch w.mem f.base f.bufsiz) })

/-- The byte at the end of a memory stream, a null byte behind it, and the caller's variables. -/
def append (c i len : Nat) (w : World) : Int × World :=
  let f := w.iob i
  let slot := f.file - NFILE
  (c % 256, { w.set i { f with ptr := f.ptr + 1 } with
    mem := update (update w.mem f.ptr (UInt8.ofNat c)) (f.ptr + 1) 0
    membuf := update w.membuf slot f.base
    memsize := update w.memsize slot (len + 1) })

def memputc (c i : Nat) (w : World) : Int × World :=
  let f := w.iob i
  let len := f.ptr - f.base
  if f.base = 0 then (EOF, w)
  else if f.bufsiz ≤ len + 1 then
    let (r, w) := grow ans i len w
    if r = EOF then (EOF, w) else append c i len w
  else append c i len w

/-- The first write on a stream: the buffer, and with it the mode. -/
def choose (i : Nat) (f : FILE) : FILE :=
  if f.base = 0 ∧ f.flag.unbuf = false then
    if i = 1 then
      { f with base := lay.sobuf, bufsiz := BUFSIZ, ptr := lay.sobuf, cnt := 0,
               flag := { f.flag with lbuf := f.flag.lbuf || ans.isatty } }
    else if ans.malloc = 0 then
      { f with base := 0, ptr := 0, cnt := 0, flag := { f.flag with unbuf := true } }
    else
      { f with base := ans.malloc, bufsiz := BUFSIZ, ptr := ans.malloc, cnt := 0,
               flag := { f.flag with mybuf := true } }
  else f

/-- The arm of `_flsbuf` for `_IOUNBUF`. -/
def putUnbuffered (c i : Nat) (w : World) : Int × World :=
  let f := { w.iob i with cnt := 0 }
  let (taken, w) := write ans f.file [UInt8.ofNat c] (w.set i f)
  if taken ≠ 1 then (EOF, w.set i { f with flag := { f.flag with err := true } })
  else (c % 256, w)

/-- The arm for `_IOLBUF`. -/
def putLine (c i : Nat) (w : World) : Int × World :=
  let f := w.iob i
  let ptr := f.ptr + 1
  let w := (w.store f.ptr (UInt8.ofNat c)).set i { f with ptr := ptr, cnt := 0 }
  if c = newline ∨ f.base + f.bufsiz ≤ ptr then
    let (r, w) := drain ans i f.base (ptr - f.base) w
    if r = EOF then (EOF, w) else (c % 256, w)
  else (c % 256, w)

/-- A byte into a buffer that has just been drained. -/
def putFirst (c i : Nat) (w : World) : Int × World :=
  let f := w.iob i
  (c % 256, (w.store f.ptr (UInt8.ofNat c)).set i { f with ptr := f.ptr + 1, cnt := f.bufsiz - 1 })

/-- The arm for a fully buffered stream. -/
def putFull (c i : Nat) (w : World) : Int × World :=
  let f := w.iob i
  let (r, w) := drain ans i f.base (f.ptr - f.base) w
  if r = EOF then (EOF, w.set i { w.iob i with cnt := 0 }) else putFirst c i w

/-- `_IORW`: the stream is being written now. -/
def turnToWrite (f : FILE) : FILE :=
  if f.flag.rw then { f with flag := { f.flag with wrt := true, eof := false } } else f

def flsbuf (c i : Nat) (w : World) : Int × World :=
  let f := turnToWrite (w.iob i)
  if f.flag.strg then
    let w := w.set i { f with cnt := 0 }
    if f.flag.mem then memputc ans c i w else (EOF, w)
  else
    let f := choose lay ans i f
    let w := w.set i f
    if f.flag.unbuf then putUnbuffered ans c i w
    else if f.flag.lbuf then putLine ans c i w
    else putFull ans c i w

def putc (c i : Nat) (w : World) : Int × World :=
  let f := w.iob i
  let cnt := f.cnt - 1
  if 0 ≤ cnt then
    (c % 256, (w.store f.ptr (UInt8.ofNat c)).set i { f with ptr := f.ptr + 1, cnt := cnt })
  else flsbuf lay ans c i (w.set i { f with cnt := cnt })

def ferror (i : Nat) (w : World) : Bool := (w.iob i).flag.err

/-- `fputs` up to the null byte; `none` if there is none within `fuel` bytes. -/
def fputs (i : Nat) : Nat → Nat → World → Option (Int × World)
  | 0, _, _ => none
  | fuel + 1, s, w =>
    let c := w.mem s
    if c = 0 then some (if ferror i w then EOF else 0, w)
    else fputs i fuel (s + 1) (putc lay ans c.toNat i w).2

/-- `k` words from `s` to `d`, each read before it is stored. -/
def copyWords (mem : Nat → UInt8) (d s : Nat) : Nat → Nat → UInt8
  | 0 => mem
  | k + 1 => copyWords (storeAll mem d (stretch mem s NBPW)) (d + NBPW) (s + NBPW) k

/-- `n` bytes from `p` on into the stream; how many there were. Each round of the loop makes `n`
smaller, so that there are enough of them if there are `n`. -/
def wrbytes (i : Nat) : Nat → Nat → Nat → World → Nat × World
  | 0, _, _, w => (0, w)
  | rounds + 1, p, n, w =>
    let f := w.iob i
    if NBPW ≤ n ∧ NBPW ≤ f.cnt ∧ p % NBPW = 0 ∧ f.ptr % NBPW = 0 then
      let k := min n f.cnt.toNat / NBPW
      let size := k * NBPW
      let w' := { w.set i { f with ptr := f.ptr + size, cnt := f.cnt - size } with
        mem := copyWords w.mem f.ptr p k }
      let (put, w') := wrbytes i rounds (p + size) (n - size) w'
      (size + put, w')
    else if n = 0 then (0, w)
    else
      let (_, w') := putc lay ans (w.mem p).toNat i w
      if ferror i w' then (0, w')
      else
        let (put, w') := wrbytes i rounds (p + 1) (n - 1) w'
        (put + 1, w')

def fwrite (p size count i : Nat) (w : World) : Nat × World :=
  if size = 0 ∨ count = 0 then (0, w)
  else
    let n := size * count
    let (put, w) := wrbytes lay ans i n p n w
    if put = n then (count, w) else (put / size, w)

def fflush (i : Nat) (w : World) : Int × World :=
  let f := w.iob i
  if f.flag.wrt ∧ f.flag.unbuf = false ∧ f.flag.strg = false ∧ f.base ≠ 0 then
    let (r, w) := drain ans i f.base (f.ptr - f.base) w
    if r = EOF then (EOF, w)
    -- a line-buffered stream stays at 0
    else if f.flag.lbuf then (0, w)
    else (0, w.set i { w.iob i with cnt := f.bufsiz })
  else (0, w)

/-- `fflush(NULL)`. -/
def fflushAll (w : World) : Int × World :=
  (List.range NFILE).foldl
    (fun (r, w) i =>
      let (r', w) := fflush ans i w
      (if r' = EOF then EOF else r, w))
    (0, w)

/-- What is left of a slot. -/
def retire (f : FILE) : FILE := { f with flag := {}, cnt := 0 }

def fclose (i : Nat) (w : World) : Int × World :=
  let f := w.iob i
  if f.flag.mem then (0, w.set i (retire { f with base := 0, ptr := 0, bufsiz := 0 }))
  else if f.busy ∧ f.flag.strg = false then
    let (r, w) := fflush ans i w
    let f := w.iob i
    let base := if f.flag.mybuf || f.flag.unbuf then 0 else f.base
    (if ans.close then r else EOF, w.set i (retire { f with base := base }))
  else (EOF, w.set i (retire f))

/-! ### Opening -/

/-- The first character of the mode, and whether a `+` is behind it. -/
structure Mode where
  first : Char
  plus : Bool

/-- The first slot that is not in use. The loop looks at a slot before it asks whether the table
has ended, so it looks at one that is behind the table. -/
def findiop (w : World) : Option Nat := (List.range (NFILE + 1)).find? fun i => !(w.iob i).busy

/-- Attach the descriptor `fd`, `none` if there is none, to a slot. -/
def endopen (mode : Mode) (fd : Option Nat) (i : Nat) (w : World) : Option Nat × World :=
  if mode.first = 'w' ∨ mode.first = 'a' ∨ mode.first = 'r' then
    match fd with
    | none => (none, w)
    | some fd =>
      let f := w.iob i
      let flag :=
        if mode.plus then { f.flag with rw := true }
        else if mode.first = 'r' then { f.flag with read := true }
        else { f.flag with wrt := true }
      (some i, w.set i { f with cnt := 0, file := fd, flag := flag })
  else (none, w)

def fopen (mode : Mode) (fd : Option Nat) (w : World) : Option Nat × World :=
  match findiop w with
  | none => (none, w)
  | some i => endopen mode fd i w

def freopen (mode : Mode) (fd : Option Nat) (i : Nat) (w : World) : Option Nat × World :=
  endopen mode fd i (fclose ans i w).2

def fdopen (fd : Nat) (mode : Mode) (w : World) : Option Nat × World :=
  match findiop w with
  | none => (none, w)
  | some i =>
    let f := { w.iob i with cnt := 0, file := fd }
    if mode.first = 'r' ∨ mode.first = 'a' ∨ mode.first = 'w' then
      let flag :=
        if mode.plus then { f.flag with read := false, wrt := false, rw := true }
        else if mode.first = 'r' then { f.flag with read := true }
        else { f.flag with wrt := true }
      (some i, w.set i { f with flag := flag })
    else (none, w.set i f)

def openMemstream (w : World) : Option Nat × World :=
  match (List.range NFILE).find? fun i => !(w.iob i).busy with
  | none => (none, w)
  | some i =>
    if ans.malloc = 0 then (none, w)
    else
      let f : FILE := { base := ans.malloc, ptr := ans.malloc, bufsiz := MEMSTART, cnt := 0,
                        flag := { wrt := true, strg := true, mem := true }, file := NFILE + i }
      (some i, { (w.store ans.malloc 0).set i f with
        membuf := update w.membuf i ans.malloc
        memsize := update w.memsize i 0 })

/-! ### Reading -/

/-- A buffer for a stream that has none: one byte of the library's if it is not buffered. -/
def chooseIn (f : FILE) : FILE :=
  if f.base ≠ 0 then f
  else if f.flag.unbuf then { f with base := lay.smallbuf + f.file, bufsiz := 1 }
  else if ans.malloc = 0 then
    { f with base := lay.smallbuf + f.file, bufsiz := 1, flag := { f.flag with unbuf := true } }
  else { f with base := ans.malloc, bufsiz := BUFSIZ, flag := { f.flag with mybuf := true } }

/-- The end of the file. -/
def atEnd (f : FILE) : FILE :=
  { f with cnt := 0, flag := { f.flag with eof := true, read := f.flag.read && !f.flag.rw } }

/-- A refill, when `left` bytes of the request are left. -/
def filbuf (i left : Nat) (w : World) : Int × World :=
  let f := w.iob i
  let f := if f.flag.rw then { f with flag := { f.flag with read := true } } else f
  if f.flag.read = false ∨ f.flag.strg then (EOF, w.set i f)
  else
    let f := chooseIn lay ans f
    let f := { f with ptr := f.base }
    match ans.read left with
    | none => (EOF, w.set i { f with cnt := 0, flag := { f.flag with err := true } })
    | some bytes =>
      match bytes.take (if f.flag.unbuf then 1 else f.bufsiz) with
      | [] => (EOF, w.set i (atEnd f))
      | c :: rest =>
        (c.toNat, { w.set i { f with ptr := f.base + 1, cnt := rest.length } with
          mem := storeAll w.mem f.base (c :: rest) })

def getc (i left : Nat) (w : World) : Int × World :=
  let f := w.iob i
  let cnt := f.cnt - 1
  if 0 ≤ cnt then ((w.mem f.ptr).toNat, w.set i { f with ptr := f.ptr + 1, cnt := cnt })
  else filbuf lay ans i left (w.set i { f with cnt := cnt })

/-- `n` bytes out of the stream to `p`; how many there were. -/
def rdbytes (i : Nat) : Nat → Nat → Nat → World → Nat × World
  | 0, _, _, w => (0, w)
  | rounds + 1, p, n, w =>
    let f := w.iob i
    if NBPW ≤ n ∧ NBPW ≤ f.cnt ∧ p % NBPW = 0 ∧ f.ptr % NBPW = 0 then
      let k := min n f.cnt.toNat / NBPW
      let size := k * NBPW
      let w' := { w.set i { f with ptr := f.ptr + size, cnt := f.cnt - size } with
        mem := copyWords w.mem p f.ptr k }
      let (got, w') := rdbytes i rounds (p + size) (n - size) w'
      (size + got, w')
    else if n = 0 then (0, w)
    else
      let (c, w') := getc lay ans i n w
      if c < 0 then (0, w')
      else
        let (got, w') := rdbytes i rounds (p + 1) (n - 1) (w'.store p (UInt8.ofNat c.toNat))
        (got + 1, w')

def fread (p size count i : Nat) (w : World) : Nat × World :=
  if size = 0 ∨ count = 0 then (0, w)
  else
    let n := size * count
    let (got, w) := rdbytes lay ans i n p n w
    if got = n then (count, w) else (got / size, w)

/-- A character back into the buffer. `none` is `EOF`. -/
def ungetc (c : Option Nat) (i : Nat) (w : World) : Int × World :=
  let f := w.iob i
  match c with
  | none => (EOF, w)
  | some c =>
    let put (ptr : Nat) : Int × World :=
      (c % 256, (w.store (ptr - 1) (UInt8.ofNat c)).set i
        { f with ptr := ptr - 1, cnt := f.cnt + 1, flag := { f.flag with eof := false } })
    if f.base = 0 then (EOF, w)
    else if f.flag.read = false ∨ f.ptr ≤ f.base then
      if f.ptr = f.base ∧ f.cnt = 0 then put (f.ptr + 1) else (EOF, w)
    else put f.ptr

/-! ### Position -/

/-- Drop what is in the buffer of a stream for reading and for writing. -/
def turn (f : FILE) : FILE :=
  if f.flag.rw then { f with ptr := f.base, flag := { f.flag with read := false } } else f

def fseek (offset : Int) (whence i : Nat) (w : World) : Int × World :=
  let f := { w.iob i with flag := { (w.iob i).flag with eof := false } }
  let result (p : Int) : Int := if p = -1 then -1 else 0
  if f.flag.read then
    let c := f.cnt
    let p := if whence = 0 then offset + (c - ans.tell) else offset
    if whence < 2 ∧ f.base ≠ 0 ∧ f.flag.unbuf = false ∧ f.flag.rw = false ∧ 0 < c ∧ p ≤ c ∧
        (f.base : Int) - f.ptr ≤ p then
      (0, w.set i { f with ptr := (f.ptr + p).toNat, cnt := c - p })
    else (result ans.lseek, w.set i { turn f with cnt := 0 })
  else if f.flag.wrt || f.flag.rw then
    let (_, w) := fflush ans i (w.set i f)
    let f := w.iob i
    let f := if f.flag.rw then { f with cnt := 0, ptr := f.base, flag := { f.flag with wrt := false } }
      else f
    (result ans.lseek, w.set i f)
  else (-1, w.set i f)

def rewind (i : Nat) (w : World) : World :=
  let (_, w) := fflush ans i w
  let f := w.iob i
  let flag := { f.flag with err := false, eof := false }
  let flag := if flag.rw then { flag with read := false, wrt := false } else flag
  w.set i { f with cnt := 0, ptr := f.base, flag := flag }

/-! ### Buffers of the caller's -/

def setbuf (buf i : Nat) (w : World) : World :=
  let f := w.iob i
  let flag := { f.flag with mybuf := false, unbuf := buf = 0, lbuf := false }
  if buf = 0 then w.set i { f with base := 0, bufsiz := 0, cnt := 0, flag := flag }
  else w.set i { f with base := buf, ptr := buf, bufsiz := BUFSIZ, cnt := 0, flag := flag }

/-- The modes `_IOFBF`, `_IOLBF` and `_IONBF`. -/
inductive Buffering where
  | full
  | line
  | no
  deriving DecidableEq

/-- `mode` is `none` for a number that is no mode. -/
def setvbuf (buf : Nat) (mode : Option Buffering) (size i : Nat) (w : World) : Int × World :=
  match mode with
  | none => (-1, w)
  | some mode =>
    let f := w.iob i
    let flag := { f.flag with mybuf := false, unbuf := false, lbuf := false }
    let f := { f with flag := flag, base := 0, bufsiz := 0, cnt := 0 }
    if mode = .no then (0, w.set i { f with flag := { flag with unbuf := true } })
    else if size = 0 then (-1, w.set i f)
    else
      let mine := decide (buf = 0)
      let buf := if buf = 0 then ans.malloc else buf
      if buf = 0 then (-1, w.set i f)
      else (0, w.set i { f with base := buf, ptr := buf, bufsiz := size,
                                flag := { flag with mybuf := mine, lbuf := mode = .line } })

def setbuffer (buf : Nat) (size : Int) (i : Nat) (w : World) : World :=
  (setvbuf ans buf (some (if buf ≠ 0 ∧ 0 < size then .full else .no)) size.toNat i w).2

def setlinebuf (i : Nat) (w : World) : World :=
  let f := w.iob i
  w.set i { f with cnt := if f.flag.wrt then 0 else f.cnt,
                   flag := { f.flag with unbuf := false, lbuf := true } }

end V7Besm.Stdio

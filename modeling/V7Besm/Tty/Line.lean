import V7Besm.Tty.Fifo

/-!
A terminal line (`dev/tty.c`, with the Consul's `scstart` and `scintr` of `dev/sc.c`).

The three queues of a line share the pool of blocks with every other clist. Typed
characters go on the raw queue at interrupt level; in cooked mode a line is ended there
by the byte 0377, and `t_delct` counts these delimiters. `canon` moves a line to the
canonical queue, editing it on the way.
-/

namespace V7Besm.Tty

abbrev CANBSIZ : Nat := 256
abbrev TTYHOG : Nat := 256
abbrev TTLOWAT : Nat := 50

/-- The delimiter on the raw queue. -/
abbrev DELIM : Nat := 0o377

abbrev CEOT : Nat := 4

/-- The clists: those of the line, and all the others that draw on the pool. -/
inductive Queue where
  | raw | can | out
  | other (n : Nat)
  deriving DecidableEq, Repr

/-- The bits of `t_flags` that are looked at; `xtabs` is `(t_flags & TBDELAY) == XTABS`. -/
structure Modes where
  tandem : Bool := false
  cbreak : Bool := false
  lcase : Bool := false
  echo : Bool := false
  crmod : Bool := false
  raw : Bool := false
  xtabs : Bool := false
  deriving DecidableEq, Repr

/-- `(t_flags & (RAW | CBREAK)) == 0`. -/
def Modes.cooked (m : Modes) : Bool := !m.raw && !m.cbreak

/-- `struct tchars`, with the defaults of `ttychars`. -/
structure Tchars where
  intrc : Nat := 0o3
  quitc : Nat := 0o34
  startc : Nat := 0o21
  stopc : Nat := 0o23
  eofc : Nat := 0o4
  brkc : Nat := 0o377
  deriving DecidableEq, Repr

/-- `struct tty`. The numbers are `char`s. -/
structure Line where
  lists : Clists Queue
  modes : Modes
  carrOn : Bool := true
  busy : Bool := false
  ttstop : Bool := false
  tblock : Bool := false
  asleep : Bool := false
  delct : Nat := 0
  col : Nat := 0
  erase : Nat := 0o177
  kill : Nat := 0o25
  echoct : Nat := 0
  tc : Tchars := {}

namespace Line

/-- `c_cc` of a queue. -/
def cc (t : Line) (q : Queue) : Nat := (t.lists.list q).cc

def putc (t : Line) (c : Nat) (q : Queue) : Bool × Line :=
  ((t.lists.putc c q).1, { t with lists := (t.lists.putc c q).2 })

def getc (t : Line) (q : Queue) : Option Nat × Line :=
  ((t.lists.getc q).1, { t with lists := (t.lists.getc q).2 })

/-- `while (getc(q) >= 0)`: one call more than there are characters. -/
def drain (t : Line) (q : Queue) : Line := { t with lists := (t.lists.qToB q (t.cc q + 1)).2 }

/-! ### Output -/

/-- `scstart`: hand the typewriter one character. -/
def scstart (t : Line) : Line :=
  if t.busy || t.ttstop then t
  else
    match t.getc .out with
    | (none, t) => t
    | (some _, t) =>
      { t with busy := true, asleep := t.asleep && !decide (t.cc .out ≤ TTLOWAT) }

def ttstart (t : Line) : Line := if t.ttstop || t.busy then t else t.scstart

/-- `partab[c] & 077`, the class of an ASCII character. -/
def partab (c : Nat) : Nat :=
  match c with
  | 0o10 => 2
  | 0o11 => 4
  | 0o12 => 3
  | 0o14 => 5
  | 0o15 => 6
  | _ => if c < 0o40 || c = 0o177 then 1 else 0

/-- The column after `c` has been printed. -/
def advance (col c : Nat) : Nat :=
  if 0o200 ≤ c then (if c &&& 0o300 ≠ 0o200 then (col + 1) % 256 else col)
  else
    match partab c with
    | 0 => (col + 1) % 256
    | 2 => col - 1
    | 3 => 0
    | 4 => ((col ||| 7) + 1) % 256
    | 6 => 0
    | _ => col

/-- `ttyoutput` of a character that is not expanded. -/
def print (t : Line) (c : Nat) : Line :=
  if t.modes.raw then (t.putc c .out).2
  else if c % 256 = CEOT then t
  else { (t.putc (c % 256) .out).2 with col := advance t.col (c % 256) }

/-- The loop for a tab: at most `n` more spaces. -/
def tab : Nat → Line → Line
  | 0, t => t.print 32
  | n + 1, t => if (t.print 32).col &&& 7 = 0 then t.print 32 else tab n (t.print 32)

/-- What an upper-case-only terminal prints behind a backslash. -/
def escaped : Nat → Option Nat
  | 123 => some 40
  | 125 => some 41
  | 124 => some 33
  | 126 => some 94
  | 96 => some 39
  | _ => none

/-- Put a character on the output queue, expanding tabs and handling the CR/NL bit. The
characters it is expanded to are not expanded again. -/
def ttyoutput (t : Line) (c : Nat) : Line :=
  if t.modes.raw then t.print c
  else
    let c := c % 256
    if c = 9 && t.modes.xtabs then tab 8 t
    else
      match if t.modes.lcase then escaped c else none with
      | some e => (t.print 92).print e
      | none =>
        let c := if t.modes.lcase && 97 ≤ c && c ≤ 122 then c - 32 else c
        let t := if c = 10 && t.modes.crmod then t.print 13 else t
        t.print c

/-! ### Input -/

/-- Flush all queues. `d_stop` does nothing. -/
def flushtty (t : Line) : Line :=
  let t := { t.drain .can with ttstop := false }
  { (t.drain .out).drain .raw with delct := 0, echoct := 0 }

/-- Send the stop character on input overflow. -/
def ttyblock (t : Line) : Line :=
  let x := t.cc .raw + t.cc .can
  let t := if t.cc .raw > TTYHOG then { t.flushtty with tblock := false } else t
  if x ≥ TTYHOG / 2 then
    match t.putc t.tc.stopc .out with
    | (true, t) => { t with tblock := true }.ttstart
    | (false, t) => t
  else t

/-- Interrupts and quits flush the line; the character is that of the program's line
ending otherwise. -/
def interrupt (t : Line) (m : Modes) (c : Nat) : Line × Option Nat :=
  if c = t.tc.quitc || c = t.tc.intrc then (t.flushtty, none)
  else (t, some (if c = 13 && m.crmod then 10 else c))

/-- What `ttyinput` does with a character that is not typed in raw mode, before it goes on
the queue; `none` if it does not. -/
def control (t : Line) (m : Modes) (c : Nat) : Line × Option Nat :=
  if m.raw then (t, some c)
  else if c = DELIM then (t, none)
  else if t.ttstop then
    if c = t.tc.startc then ({ t with ttstop := false }.ttstart, none)
    else if c = t.tc.stopc then (t, none)
    else { t with ttstop := false }.ttstart.interrupt m c
  else if c = t.tc.stopc then ({ t with ttstop := true }, none)
  else if c = t.tc.startc then (t, none)
  else t.interrupt m c

/-- The character ends a line. -/
def ends (t : Line) (c : Nat) : Bool := c = 10 || c = t.tc.eofc || c = t.tc.brkc

/-- A delimiter goes on the raw queue, and is counted. -/
def delimit (t : Line) : Line :=
  match t.putc DELIM .raw with
  | (true, t) => { t with delct := (t.delct + 1) % 256 }
  | (false, t) => t

/-- The character goes on the raw queue, with a delimiter if it ends a cooked line. -/
def enqueue (t : Line) (m : Modes) (c : Nat) : Line :=
  let t := (t.putc c .raw).2
  if m.cooked && t.ends c then t.delimit else t

/-- Echo: an erase character rubs out what was echoed, and `t_echoct` counts the columns
there are to rub out. -/
def echo (t : Line) (m : Modes) (c : Nat) : Line :=
  (if c = t.erase && m.cooked then
    if t.echoct ≠ 0 then
      { ((t.ttyoutput 8).ttyoutput 32).ttyoutput 8 with echoct := t.echoct - 1 }
    else t
  else
    let col := t.col
    let t := t.ttyoutput c
    let t := if c = t.kill && m.cooked then t.ttyoutput 10 else t
    if t.ends c || c = t.kill then { t with echoct := 0 }
    else if t.col > col && t.echoct < 0o377 then { t with echoct := t.echoct + 1 }
    else t).ttstart

/-- The character goes on its way past the control characters. -/
def accept (t : Line) (m : Modes) (c : Nat) : Line :=
  if t.cc .raw > TTYHOG then t.flushtty
  else
    let c := if m.lcase && 65 ≤ c && c ≤ 90 then c + 32 else c
    let t := t.enqueue m c
    if m.echo then t.echo m c else t

/-- Place a character on the raw queue, putting in delimiters as needed. -/
def ttyinput (t : Line) (c : Nat) : Line :=
  let m := t.modes
  let t := if m.tandem then t.ttyblock else t
  match t.control m (c % 256) with
  | (t, none) => t
  | (t, some c) => t.accept m c

/-! ### Reading -/

/-- What a character stands for behind a backslash, 0 if nothing. -/
def maptab (c : Nat) : Nat :=
  match c with
  | 33 => 124
  | 39 => 96
  | 40 => 123
  | 41 => 125
  | 94 => 126
  | _ => if 97 ≤ c && c ≤ 122 then c - 32 else 0

/-- One character of a cooked line comes to `line`, the characters in `canonb` so far, the
last one first. `canonb[0]` and `canonb[1]` are 0. -/
def edit (t : Line) (line : List Nat) (c : Nat) : List Nat :=
  if line.headD 0 ≠ 92 then
    if c = t.erase then (line.dropWhile fun b => b &&& 0o300 = 0o200).drop 1
    else if c = t.kill then []
    else if c = t.tc.eofc then line
    else c :: line
  else
    let mc := if c < 0o200 then maptab c else 0
    let mc := if c = t.erase || c = t.kill then c else mc
    if mc ≠ 0 && (mc = c || t.modes.lcase) then
      (if line.getD 1 0 ≠ 92 then mc else c) :: line.drop 1
    else c :: line

/-- The loop of `canon`, for at most `n` characters. A line that is not stored in does not
get longer, so the test of its length may be made in any case. -/
def canonLoop : Nat → Line → List Nat → Line × List Nat
  | 0, t, line => (t, line)
  | n + 1, t, line =>
    match t.getc .raw with
    | (none, t) => (t, line)
    | (some c, t) =>
      if t.modes.cooked && c = DELIM then ({ t with delct := (t.delct + 255) % 256 }, line)
      else
        let line := if t.modes.cooked then t.edit line c else c :: line
        if line.length + 2 ≥ CANBSIZ then (t, line) else canonLoop n t line

/-- `canon` has to wait. -/
def waits (t : Line) : Bool := (t.modes.cooked && t.delct = 0) || (!t.modes.cooked && t.cc .raw = 0)

/-- The part of `canon` behind the loop. -/
def canonEnd (t : Line) (line : List Nat) : Line :=
  let t := { t with lists := (t.lists.bToQ .can line.reverse).2 }
  if t.tblock && t.cc .raw < TTYHOG / 5 then
    match t.putc t.tc.startc .out with
    | (true, t) => { t with tblock := false }.ttstart
    | (false, t) => t
  else t

/-- Transfer the raw queue to the canonical queue; `none` if it sleeps. -/
def canon (t : Line) : Option (Nat × Line) :=
  if t.waits then (if t.carrOn then none else some (0, t))
  else
    let r := canonLoop (t.cc .raw + 1) t []
    some (r.2.length, r.1.canonEnd r.2)

/-- `ttread` of `n` characters; `none` if it sleeps. -/
def ttread (t : Line) (n : Nat) : Option Line :=
  let pass (t : Line) : Line := { t with lists := (t.lists.qToB .can n).2 }
  if !t.carrOn then some t
  else if t.cc .can ≠ 0 then some (pass t)
  else
    match t.canon with
    | none => none
    | some (k, t) => some (if k ≠ 0 then pass t else t)

/-! ### Runs -/

/-- The part of `struct sgttyb` that matters. -/
structure Sgttyb where
  modes : Modes
  erase : Nat
  kill : Nat

def setn (t : Line) (p : Sgttyb) : Line :=
  { t with modes := p.modes, erase := p.erase, kill := p.kill }

/-- `TIOCSETP`: wait for output to drain, then flush input waiting. The call that goes to
sleep starts the output and is where it was when it is woken. -/
def setp (t : Line) (p : Sgttyb) : Line :=
  if t.cc .out ≠ 0 && t.carrOn then { t.scstart with asleep := true } else t.flushtty.setn p

/-- What happens to a line. -/
inductive Op where
  | input (c : Nat)
  | read (n : Nat)
  | flush
  | setp (p : Sgttyb)
  | setn (p : Sgttyb)
  | setc (tc : Tchars)
  | write (c : Nat)
  | done
  | otherPutc (c n : Nat)
  | otherGetc (n : Nat)

def step (t : Line) : Op → Line
  | .input c => t.ttyinput c
  | .read n => (t.ttread n).getD t
  | .flush => t.flushtty
  | .setp p => t.setp p
  | .setn p => t.setn p
  | .setc tc => { t with tc := tc }
  | .write c => (t.ttyoutput c).ttstart
  | .done => { t with busy := false }.ttstart
  | .otherPutc c n => (t.putc c (.other n)).2
  | .otherGetc n => (t.getc (.other n)).2

/-- A line that has just been opened. -/
def opened (p : Sgttyb) (tc : Tchars) : Line :=
  { lists := Clists.cinit Clists.bss, modes := p.modes, erase := p.erase, kill := p.kill, tc := tc }

end Line

end V7Besm.Tty

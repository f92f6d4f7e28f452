import Mathlib.Data.Nat.Notation

/-!
# The settings of the serial port

The daemon and the utility `read_serial_port` make the same changes to the attributes of a
serial port before they read from it. The constants of `<termios.h>` differ between systems
and are parameters; a word of 64 bits holds `tcflag_t` on all of them.
-/

namespace K7nvhRng.SerialSettings

structure Termios where
  cIflag : BitVec 64
  cOflag : BitVec 64
  cCflag : BitVec 64
  cLflag : BitVec 64
  deriving DecidableEq

structure Constants where
  ignbrk : BitVec 64
  ixon : BitVec 64
  ixoff : BitVec 64
  ixany : BitVec 64
  csize : BitVec 64
  cs8 : BitVec 64
  cstopb : BitVec 64
  cread : BitVec 64
  parenb : BitVec 64
  parodd : BitVec 64
  clocal : BitVec 64
  crtscts : BitVec 64

/-- What the interface attributes are set to, given what they were. -/
def configure (c : Constants) (tty : Termios) : Termios :=
  let tty := { tty with cCflag := (tty.cCflag &&& ~~~c.csize) ||| c.cs8 }
  let tty := { tty with cIflag := tty.cIflag &&& ~~~c.ignbrk }
  let tty := { tty with cLflag := 0 }
  let tty := { tty with cOflag := 0 }
  let tty := { tty with cIflag := tty.cIflag &&& ~~~(c.ixon ||| c.ixoff ||| c.ixany) }
  let tty := { tty with cCflag := tty.cCflag ||| (c.clocal ||| c.cread) }
  let tty := { tty with cCflag := tty.cCflag &&& ~~~(c.parenb ||| c.parodd) }
  let tty := { tty with cCflag := tty.cCflag &&& ~~~c.cstopb }
  { tty with cCflag := tty.cCflag &&& ~~~c.crtscts }

end K7nvhRng.SerialSettings

import EV6.Core.Basic

namespace EV6

inductive Reading where
  | flag (b : Bool)
  | word (w : Word)
  | count (n : Nat)
  | label (s : String)
  | absent
  deriving DecidableEq, Repr

namespace Core

variable {π : Type}

def controlReadings (c : Core π) : List (String × Reading) :=
  [("big_endian", .flag c.bigEndian), ("vax_interrupt_flag", .flag c.interruptFlag),
    ("lock_flag", .flag c.lock.held), ("lock_va", .word c.lock.va), ("lock_pa", .word c.lock.pa),
    ("fpcr", .word c.control.bits), ("mode", .label c.mode.name), ("pal_mode", .flag c.palMode),
    ("implver", .word c.implver), ("amask", .word c.amask)]

def bufferReadings (name : String) (t : TranslationBuffer) : List (String × Reading) :=
  [(name ++ ".occupancy", .count t.occupancy),
    (name ++ ".pending", (t.pending.map .word).getD .absent)]

def mboxReadings (m : Mbox π) : List (String × Reading) :=
  [("dcache.occupancy", .count m.memory.dcache.occupancy),
    ("bcache.occupancy", .count m.memory.bcache.occupancy), ("mbox.loads", .count m.loads.size),
    ("mbox.stores", .count m.stores.size),
    ("mbox.oldest", (m.stores.oldest.map .count).getD .absent), ("mbox.polls", .count m.polls)]

def predictorReadings (p : Tournament) : List (String × Reading) :=
  [("predictor.mode", .label p.mode.name), ("predictor.path", .count p.globalPath)]

def status (c : Core π) : List (String × Reading) :=
  c.controlReadings ++ bufferReadings "itb" c.translation.itb
    ++ bufferReadings "dtb" c.translation.dtb
    ++ mboxReadings c.mbox ++ predictorReadings c.predictor
    ++ c.iprs.toList.map (fun r => ("ipr." ++ r.1, .word r.2))
    ++ c.statistics.toList.map fun r => ("stats." ++ r.1, .count r.2)

def differing (before after : List (String × Reading)) : List (String × Reading) :=
  ((before.zip after).filter fun (x, y) => x != y).map (·.2)

def changes (before c : Core π) : List (String × Reading) := differing before.status c.status

end Core

end EV6

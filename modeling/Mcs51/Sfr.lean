import Mcs51.Byte
import Mcs51.Text

/-!
# Special function registers

The upper half of internal memory holds the special function registers. Each has a fixed address
and a name; some of their bits have names as well, and a bit is named by its bit address. This
file fixes the addresses, the two name tables, and the masks of the control bits to which the
peripherals react.

The tables are read in order and the first match wins, in both directions. Only one address has
two names: the carry flag is `C` before it is `CY`, so `C` is how it is shown.
-/

namespace Mcs51
namespace Sfr

/-! ## 1. Addresses -/

abbrev p0 : Byte := 0x80  -- latch of the first parallel pin group
abbrev sp : Byte := 0x81  -- stack pointer
abbrev dpl : Byte := 0x82  -- lower byte of the data pointer
abbrev dph : Byte := 0x83  -- upper byte of the data pointer
abbrev pcon : Byte := 0x87  -- power control
abbrev tcon : Byte := 0x88  -- timer control
abbrev tmod : Byte := 0x89  -- timer mode
abbrev tl0 : Byte := 0x8A  -- lower byte of timer 0
abbrev tl1 : Byte := 0x8B  -- lower byte of timer 1
abbrev th0 : Byte := 0x8C  -- upper byte of timer 0
abbrev th1 : Byte := 0x8D  -- upper byte of timer 1
abbrev p1 : Byte := 0x90  -- latch of the second parallel pin group
abbrev scon : Byte := 0x98  -- serial control
abbrev sbuf : Byte := 0x99  -- serial data buffer
abbrev p2 : Byte := 0xA0  -- latch of the third parallel pin group
abbrev ie : Byte := 0xA8  -- interrupt enable
abbrev p3 : Byte := 0xB0  -- latch of the fourth parallel pin group
abbrev ip : Byte := 0xB8  -- interrupt priority
abbrev psw : Byte := 0xD0  -- program status word
abbrev acc : Byte := 0xE0  -- accumulator
abbrev b : Byte := 0xF0  -- the second operand of multiplication and division

abbrev carryBit : Byte := 0xD7  -- the bit address of the carry flag

abbrev firstAddress : Byte := 0x80  -- where the special function registers begin

/-! ## 2. Names of bytes -/

/-- The named registers, in ascending order of address except where the timers interleave. -/
def byteNames : List (String × Byte) :=
  [("P0", p0), ("SP", sp), ("DPL", dpl), ("DPH", dph), ("PCON", pcon),
   ("TCON", tcon), ("TMOD", tmod), ("TL0", tl0), ("TL1", tl1), ("TH0", th0), ("TH1", th1),
   ("P1", p1), ("SCON", scon), ("SBUF", sbuf), ("P2", p2), ("IE", ie),
   ("P3", p3), ("IP", ip), ("PSW", psw), ("ACC", acc), ("B", b)]

/-- The address of the register with the given name, in any letter case. -/
def address? (name : String) : Option Byte :=
  (byteNames.find? fun entry => entry.1 == Text.upperString name).map (·.2)

/-- The name that the byte at an address is shown by. -/
def name? (addr : Byte) : Option String :=
  (byteNames.find? fun entry => entry.2 == addr).map (·.1)

/-! ## 3. Names of bits -/

/-- The named bits, by bit address, grouped by the register that holds them: the status word,
timer control, serial control, interrupt enable and interrupt priority. -/
def bitNames : List (String × Byte) :=
  [("C", 0xD7), ("CY", 0xD7), ("AC", 0xD6), ("F0", 0xD5), ("RS1", 0xD4),
   ("RS0", 0xD3), ("OV", 0xD2), ("P", 0xD0),
   ("TF1", 0x8F), ("TR1", 0x8E), ("TF0", 0x8D), ("TR0", 0x8C),
   ("IE1", 0x8B), ("IT1", 0x8A), ("IE0", 0x89), ("IT0", 0x88),
   ("SM0", 0x9F), ("SM1", 0x9E), ("SM2", 0x9D), ("REN", 0x9C),
   ("TB8", 0x9B), ("RB8", 0x9A), ("TI", 0x99), ("RI", 0x98),
   ("EA", 0xAF), ("ES", 0xAC), ("ET1", 0xAB), ("EX1", 0xAA), ("ET0", 0xA9), ("EX0", 0xA8),
   ("PS", 0xBC), ("PT1", 0xBB), ("PX1", 0xBA), ("PT0", 0xB9), ("PX0", 0xB8)]

/-- The bit address of the bit with the given name, in any letter case. -/
def bitAddress? (name : String) : Option Byte :=
  (bitNames.find? fun entry => entry.1 == Text.upperString name).map (·.2)

/-- The name that the bit at a bit address is shown by. -/
def bitName? (addr : Byte) : Option String :=
  (bitNames.find? fun entry => entry.2 == addr).map (·.1)

/-! ## 4. Control bits

Masks within `TCON`, within `SCON`, and within `IE`. `IP` gives each interrupt source the same
position that `IE` gives it. -/

abbrev tf1 : Byte := 0x80  -- timer 1 has overflowed
abbrev tr1 : Byte := 0x40  -- timer 1 counts
abbrev tf0 : Byte := 0x20  -- timer 0 has overflowed
abbrev tr0 : Byte := 0x10  -- timer 0 counts
abbrev ie1 : Byte := 0x08  -- external interrupt 1 is requested
abbrev ie0 : Byte := 0x02  -- external interrupt 0 is requested

abbrev ti : Byte := 0x02  -- a byte has been sent
abbrev ri : Byte := 0x01  -- a byte has been received

abbrev ea : Byte := 0x80  -- interrupts are taken at all
abbrev es : Byte := 0x10  -- the serial line may interrupt
abbrev et1 : Byte := 0x08  -- timer 1 may interrupt
abbrev ex1 : Byte := 0x04  -- the second external line may interrupt
abbrev et0 : Byte := 0x02  -- timer 0 may interrupt
abbrev ex0 : Byte := 0x01  -- the first external line may interrupt

end Sfr
end Mcs51

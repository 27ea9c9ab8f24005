/-!
# Error numbers

The values of `include/errno.h` that the modelled functions return. Kernel functions return the
negated value, and `OK` is zero.
-/

namespace BaseNx

/-- `OK` -/
def OK : Int := 0

/-- `ERROR` -/
def ERROR : Int := -1

def ENOENT : Int := 2
def EAGAIN : Int := 11
def ENOMEM : Int := 12
def EBUSY : Int := 16
def EEXIST : Int := 17
def EINVAL : Int := 22
def ENOSPC : Int := 28
def ESPIPE : Int := 29
def ENOSYS : Int := 88
def ELOOP : Int := 92

end BaseNx

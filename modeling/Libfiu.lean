import Libfiu.HashResize
import Libfiu.HashAmortised
import Libfiu.HashInt
import Libfiu.WtableAlloc
import Libfiu.FiuOnetime
import Libfiu.FiuProgress
import Libfiu.FiuOnce
import Libfiu.FiuCtrl
import Libfiu.RcFifo
import Libfiu.RcRoutes
import Libfiu.FiuRun
import Libfiu.PosixRecursion
import Libfiu.PosixFerror
import Libfiu.PosixReduce
import Libfiu.PosixTransparent
import Libfiu.FiuReentry
import Libfiu.FiuRandom
import Libfiu.FiuNames
import Libfiu.FiuStack
import Libfiu.FiuFork
import Libfiu.FiuRest
import Libfiu.FiuRemoved
import Libfiu.FiuAlone
import Libfiu.FiuSeed
import Libfiu.FiuAtomic
import Libfiu.FiuAlloc
import Libfiu.FiuPython
import Libfiu.Lib.Scripts
import Libfiu.PosixResolve
import Libfiu.Lib.Regex
import Libfiu.PosixDeclaration
import Libfiu.PosixParse
import Libfiu.PosixAccepted
import Libfiu.PosixNames

import Nglibc.Exit.ExactlyOnce
import Nglibc.Stdio.OutputOrder
import Nglibc.Stdio.StringInput
import Nglibc.Search.HsearchHistory
import Nglibc.Sort.QuicksortSorted
import Nglibc.Sort.QsortStable
import Nglibc.Sort.Bsearch
import Nglibc.Resolv.NsNameRoundTrip
import Nglibc.Stdlib.EnvironRuns
import Nglibc.Strings.Strverscmp
import Nglibc.Malloc.DynarrayRefinement
import Nglibc.Resolv.Base64RoundTrip
import Nglibc.Resolv.InetNtop
import Nglibc.Resolv.NsParseRuns
import Nglibc.Resolv.NsUnpackAccesses
import Nglibc.Resolv.InetNetPton
import Nglibc.Stdio.SprintfChk
import Nglibc.Stdlib.RandomStreams
import Nglibc.Elf.SortMapsDfs
import Nglibc.Elf.DstExpansion
import Nglibc.Elf.MinimalMallocCorrect
import Nglibc.Elf.FindObjectRuns
import Nglibc.Elf.StaticTlsRuns
import Nglibc.Elf.TlsModidRuns
import Nglibc.Elf.UniqueSymbolsRuns
import Nglibc.Elf.SymbolLookupScopes
import Nglibc.Elf.CloseMarks
import Nglibc.Elf.HwcapsPriorities
import Nglibc.Time.TzLatest
import Nglibc.Stdlib.RealpathRun
import Nglibc.Stdio.IntegerConversion
import Nglibc.Stdio.Gets
import Nglibc.Misc.MntentRoundTrip
import Nglibc.Posix.GetoptRuns
import Nglibc.Stdio.Mbr2wcChunks
import Nglibc.Stdio.IntscanSubject
import Nglibc.Stdio.Getdelim
import Nglibc.Stdio.LineBuffering
import Nglibc.Stdio.ObstackVprintf
import Nglibc.Stdio.SeekableRuns
import Nglibc.Stdio.ScanAllocationSafe
import Nglibc.Strings.Strcasestr
import Nglibc.Strings.Strstr
import Nglibc.Malloc.Systrim
import Nglibc.Misc.TdeleteStack
import Nglibc.Malloc.LargeBinLists
import Nglibc.Resolv.DnsHostAnswer
import Nglibc.Strings.Memmove
import Nglibc.Strings.MemcmpRuns
import Nglibc.Strings.ScannersStrnlen
import Nglibc.Strings.ArgzReplace
import Nglibc.Stdlib.Arc4randomUniform
import Nglibc.Time.TzFileDefault
import Nglibc.Time.StrptimeWeekday

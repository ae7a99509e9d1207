import Nawam.Base.Bytes
import Nawam.Base.Numeral
import Nawam.Base.CString
import Nawam.Base.Lines
import Nawam.Security.Text
import Nawam.Security.TextGrammar
import Nawam.Base.Calendar
import Nawam.Base.Files
import Nawam.Base.Heap
import Nawam.Base.Json
import Nawam.Base.Pieces
import Nawam.Base.System
import Nawam.Base.Trace
import Nawam.Base.Align
import Nawam.Base.Ensures
import Nawam.Base.Extent
import Nawam.Base.Memory
import Nawam.Format.SectorWrite
import Nawam.Format.ShortWrites
import Nawam.Format.Fat32
import Nawam.Format.Fat32Limits
import Nawam.Hash.RevokedByDbx
import Nawam.Hash.RevokedBySbat
import Nawam.Net.DbxFreshness
import Nawam.Net.RefreshText
import Nawam.Net.RefreshThread
import Nawam.Drive.Partition
import Nawam.Format.WriteDrive
import Nawam.Format.ReadAhead
import Nawam.Format.MsSysFile
import Nawam.Format.GptMessage
import Nawam.Format.WritePbr
import Nawam.Format.SizeText
import Nawam.Format.ValidLabel
import Nawam.Hash.HashThread
import Nawam.Hash.Streaming
import Nawam.Drive.BadBlocks
import Nawam.Drive.BadBlockList
import Nawam.Drive.FakeDrive
import Nawam.Safety.DbxWalk
import Nawam.Drive.CreatePartition
import Nawam.Drive.PersistenceSize
import Nawam.Hash.Pe256
import Nawam.Hash.Bootloader
import Nawam.Hash.BootloaderBounds
import Nawam.Base.HexFields
import Nawam.Drive.EspReversal
import Nawam.Drive.GuidText
import Nawam.Format.ZeroDrive
import Nawam.Base.Chunks
import Nawam.Parser.TokenLine
import Nawam.Parser.IniSettings
import Nawam.Parser.IniRoundTrip
import Nawam.Base.Cursor
import Nawam.Parser.FatDumpdir
import Nawam.Parser.FatDirectory
import Nawam.Parser.FatNames
import Nawam.Parser.FatListing
import Nawam.Parser.FatNameBounds
import Nawam.Parser.ReadFat
import Nawam.Hash.PeSections
import Nawam.Hash.WriteBounds
import Nawam.Hash.StandardTransforms
import Nawam.Hash.X86Agreement
import Nawam.Hash.Md5sumQuery
import Nawam.Hash.Md5sumUpdate
import Nawam.Hash.Md5sumRename
import Nawam.Parser.ResourceSearch
import Nawam.Parser.ResourceTree
import Nawam.Parser.Oid
import Nawam.Parser.Asn1
import Nawam.Parser.Asn1Der
import Nawam.Parser.ReplaceInToken
import Nawam.Parser.ConfigFile
import Nawam.Parser.LocCommand
import Nawam.Parser.LocReader
import Nawam.Parser.LocFile
import Nawam.Parser.LocText
import Nawam.Parser.TokenBuffer
import Nawam.Parser.FatLinks
import Nawam.Parser.DumpFatDir
import Nawam.Parser.LocLines
import Nawam.Parser.LocPasses
import Nawam.Parser.LocBuffer
import Nawam.Bled.Reader
import Nawam.Bled.ZipSize
import Nawam.Bled.ZstdSize
import Nawam.Bled.DiskImageSize
import Nawam.Base.Achieves
import Nawam.Bled.XzSize
import Nawam.Base.EarlyReturn
import Nawam.Bled.SevenZip
import Nawam.Bled.SevenZipFolder
import Nawam.Bled.Numbers
import Nawam.Bled.ProjectedSize
import Nawam.Parser.SyslinuxVersion
import Nawam.Base.Probing
import Nawam.Parser.Htab
import Nawam.Parser.DialogCommands
import Nawam.Parser.Trim
import Nawam.Base.HeapBlock
import Nawam.Base.Insertion
import Nawam.Base.BitSet
import Nawam.Base.CheckedInt
import Nawam.Hash.ImageRegions
import Nawam.Hash.ThreadAffinity
import Nawam.Ui.LicenseLayout
import Nawam.Base.PrioritySearch
import Nawam.Regex.CharClass
import Nawam.Regex.Compile
import Nawam.Regex.Vm
import Nawam.Regex.VmSearch
import Nawam.Regex.Denotation
import Nawam.Regex.Matching
import Nawam.Regex.Parse
import Nawam.Regex.Pattern
import Nawam.Regex.Label
import Nawam.Base.Sweep
import Nawam.Wim.LzxFilter
import Nawam.Wim.LzxFilterVector
import Nawam.Base.Spelling
import Nawam.Wim.Encoding
import Nawam.Wim.Names

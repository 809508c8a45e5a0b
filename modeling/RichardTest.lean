import RichardTest.BigNumC.Factorial
import RichardTest.BigNumC.AddInPlace
import RichardTest.BigNumCpp.Width
import RichardTest.BigNumCpp.PowerMod
import RichardTest.BigNumCpp.Equality
import RichardTest.Paillier.ExEuclid
import RichardTest.RabinMiller.Bases
import RichardTest.DesJava.Theorems
import RichardTest.Des.Complement
import RichardTest.Des.KeyBits
import RichardTest.Des.Fips
import RichardTest.Http.Peer
import RichardTest.Http.JsonValue
import RichardTest.Snowflake.Theorems
import RichardTest.RsaDemo.PrivateKey
import RichardTest.RsaDemo.CoPrime
import RichardTest.RsaJava.Theorems
import RichardTest.RsaDeploy.Theorems
import RichardTest.TokenJava.Theorems
import RichardTest.Http.Dispatch
import RichardTest.DtParser.Report
import RichardTest.DbPool.Theorems
import RichardTest.Netty.Theorems
import RichardTest.RsaUtils.Theorems
import RichardTest.Crc16
import RichardTest.CodecNCrypto.Theorems
import RichardTest.RsaAlgorithm.Theorems
import RichardTest.MurmurHash.Theorems
import RichardTest.ByteBufToBytes
import RichardTest.InvertedIndex.Theorems
import RichardTest.QSort.Theorems
import RichardTest.BigNumCpp.Text
import RichardTest.HttpClient
import RichardTest.HttpClient.Rstrchr
import RichardTest.Eipd.Holes
import RichardTest.Eipd.Transitions
import RichardTest.Eipd.LandingHeight
import RichardTest.Eipd.BinMatrix
import RichardTest.ExchangeSort.Theorems
import RichardTest.FarmerChild.Theorems
import RichardTest.WaitNotifyTest.Theorems
import RichardTest.AtomicTest.Schedules
import RichardTest.Rpc.Theorems
import RichardTest.UniSock.Runs
import RichardTest.Http.Exchange
import RichardTest.HttpClient.Download
import RichardTest.Protobuf.Messages
import RichardTest.Paillier.Combined
import RichardTest.RabinMiller.GeneratePrime
import RichardTest.RsaDeploy.Interop
import RichardTest.RsaDemo.Main
import RichardTest.TokenJava.Lifecycle
import RichardTest.IsPrime
